import LosslessGo.Proofs.Draft.Along
import LosslessGo.Proofs.Text.Returns

/-!
# Spellings that lack carriage returns

Spellings come without the carriage returns of the source. A token of such a spelling is found all the
same, over all of the text that it stands for.

* `expectedStop?_stripped`, `leafNode?_of_slice?`: where such a token ends, and its leaf.
* `Build.expectedToken_stripped`: every text is found by its spelling without carriage returns, unless
  it ends in one.
-/

namespace LosslessGo

open Text

variable {set : Setting} {a b : Nat} {u : String} {kind : TokenKind} {type : NodeType} {fields : Fields}

theorem stop_le_of_slice? (h : slice? set.source a b = some u) : b ≤ set.size := by
  unfold slice? at h
  split at h
  · rename_i hvalid
    exact hvalid.2.2.le_rawEndPos
  · cases h

/-- A text is found where it stands, also by a spelling without its carriage returns. -/
theorem expectedStop?_stripped (h : slice? set.source a b = some u) (hlt : a < b)
    (hlast : byteAt? set.source (b - 1) ≠ some carriageReturn) :
    expectedStop? set a (withoutCarriageReturns u) = .ok (some b) := by
  have hspan : set.file.lines.spanOf a (withoutCarriageReturns u) = (b, u) :=
    LineMap.spanOf_withoutCarriageReturns h hlt hlast
  have hshown : slice set.source a b = u := by rw [slice, h, Option.getD_some]
  unfold expectedStop?
  rw [hspan]
  exact (if_neg (Nat.not_lt.mpr (stop_le_of_slice? h))).trans (if_pos hshown)

/-- A text that is not empty has a leaf. -/
theorem leafNode?_of_slice? (h : slice? set.source a b = some u) (hlt : a < b) :
    ∃ range, set.file.range a b = .ok range ∧
      leafNode? set a b kind type fields =
        .ok (some ⟨type, range, a, b, some ⟨u, range, kind⟩, [], fields⟩) := by
  have hstop := stop_le_of_slice? h
  obtain ⟨range, hrange⟩ := set.file.exists_range (Nat.le_trans hlt.le hstop) hstop
  refine ⟨range, hrange, ?_⟩
  unfold leafNode?
  rw [if_neg (by omega), if_neg fun hempty => hlt.ne hempty.1, h, hrange]
  rfl

namespace Build

/-- In either mode, a text is found by its spelling without carriage returns, unless a carriage return
is its last byte: a token is made, and it covers all of the text. -/
theorem expectedToken_stripped (set : Setting) (d : Draft) (label : String) (kind : TokenKind)
    (h : slice? set.source a b = some u) (hlt : a < b)
    (hlast : byteAt? set.source (b - 1) ≠ some carriageReturn) :
    ∃ range, set.file.range a b = .ok range ∧
      expectedToken set a (withoutCarriageReturns u) label kind d =
        .ok (some d.tree.size)
          (d.add ⟨.native, range, a, b, some ⟨u, range, kind⟩, [], tokenFields label⟩) := by
  obtain ⟨range, hrange, hleaf⟩ : ∃ range, set.file.range a b = .ok range ∧
      leafNode? set a b kind .native (tokenFields label) = _ := leafNode?_of_slice? h hlt
  refine ⟨range, hrange, ?_⟩
  have hstop := expectedStop?_stripped h hlt hlast
  simp only [expectedToken, expectedLeaf, leaf, hstop, hleaf, ofExcept, Bind.bind, EStateM.bind]
  rfl

/-- A file in lenient mode, with carriage returns in a row, before and behind a character of two
bytes. -/
def stripSetting : Setting := ⟨.ofText "r.go" "x\r\r\n`a\r\n\ré\r\r`\r\ny", false⟩

theorem expectedToken_stripped_returns :
    ∃ u range, slice? stripSetting.source 4 14 = some u ∧
      byteAt? stripSetting.source 13 ≠ some carriageReturn ∧
      withoutCarriageReturns u = "`a\né`" ∧
      expectedToken stripSetting 4 "`a\né`" "" .string .empty =
        .ok (some 0)
          (Draft.empty.add ⟨.native, range, 4, 14, some ⟨u, range, .string⟩, [],
            tokenFields ""⟩) := by
  have hslice : slice? stripSetting.source 4 14 = some "`a\r\n\ré\r\r`" := by decide +kernel
  have hlast : byteAt? stripSetting.source 13 ≠ some carriageReturn := by decide +kernel
  have hspelling : withoutCarriageReturns "`a\r\n\ré\r\r`" = "`a\né`" := by decide +kernel
  obtain ⟨range, -, htoken⟩ :=
    expectedToken_stripped stripSetting .empty "" .string hslice (by decide) hlast
  rw [hspelling] at htoken
  exact ⟨_, range, hslice, hlast, hspelling, htoken⟩

end Build

end LosslessGo
