import LosslessGo.Proofs.Draft.Yields
import LosslessGo.Proofs.Text.Visible
import LosslessGo.Proofs.Tree.Grows

/-!
# Which spellings are compared with the source

A leaf of known spelling is to show that spelling. Where carriage returns move the end of the leaf, the
source itself stands in for the spelling (`LineMap.Unchecked`), and the comparison is one of the source
with itself. Tokens, lexemes and comments are such leaves, with fields of their own.

* `expectedStop?_of_unchecked`, `of_expectedStop?`: where a leaf ends, and what is compared.
* `Build.expectedLeaf_checks`: what is known of a leaf of known spelling.
* `Build.expectedToken_unchecked`: tokens that show another text than the spelling they were given.
-/

namespace LosslessGo

open Text
open LineMap (Unchecked passVisible)

/-- Whether step `x` succeeds from state `s`, with a result and a state that satisfy `p`. -/
def attains {ε σ α : Type} (x : EStateM ε σ α) (s : σ) (p : α → σ → Bool) : Bool :=
  match x s with
  | .ok a s' => p a s'
  | .error _ _ => false

theorem exists_of_attains {ε σ α : Type} {x : EStateM ε σ α} {s : σ} {p : α → σ → Bool}
    (h : attains x s p = true) : ∃ a s', x s = .ok a s' ∧ p a s' = true := by
  unfold attains at h
  split at h
  · exact ⟨_, _, ‹_›, h⟩
  · cases h

variable {set : Setting} {d : Draft} {offset stop : Nat} {expected : String} {kind : TokenKind}
  {type : NodeType} {fields : Fields}

/-- Where the source stands in for the spelling, it is found to agree. -/
theorem expectedStop?_of_unchecked (h : Unchecked set.source offset expected.utf8ByteSize) :
    expectedStop? set offset expected =
      .ok (some (passVisible set.source offset expected.utf8ByteSize)) := by
  have hspan := LineMap.spanOf_of_unchecked (m := set.file.lines) h
  have hle : passVisible set.source offset expected.utf8ByteSize ≤ set.size :=
    LineMap.passVisible_le h.2.1.le_rawEndPos
  unfold expectedStop?
  rw [hspan]
  exact (if_neg (Nat.not_lt.mpr hle)).trans (if_pos rfl)

/-- Any other leaf ends where its spelling does. -/
theorem expectedStop?_of_checked (h : ¬Unchecked set.source offset expected.utf8ByteSize) :
    expectedStop? set offset expected =
      let stop := offset + expected.utf8ByteSize
      if set.size < stop then .error (.invalidToken (set.location offset stop))
      else if slice set.source offset stop = expected then .ok (some stop)
      else if set.strict then
        .error (.tokenValue (slice set.source offset stop) expected (set.location offset stop))
      else .ok none := by
  unfold expectedStop?
  rw [LineMap.spanOf_of_checked (m := set.file.lines) h]

theorem of_expectedStop? (h : ¬Unchecked set.source offset expected.utf8ByteSize)
    (hstop : expectedStop? set offset expected = .ok (some stop)) :
    stop = offset + expected.utf8ByteSize ∧ slice set.source offset stop = expected := by
  rw [expectedStop?_of_checked h] at hstop
  simp only at hstop
  split at hstop
  · cases hstop
  split at hstop
  · cases hstop
    exact ⟨rfl, ‹_›⟩
  · split at hstop <;> cases hstop

/-- In strict mode, a span that is no part of the text has no leaf. -/
theorem leafNode?_error (hstrict : set.strict = true) (h : slice? set.source offset stop = none) :
    ∃ e, leafNode? set offset stop kind type fields = .error e := by
  simp only [leafNode?, h, hstrict, if_true]
  split
  · exact ⟨_, rfl⟩
  · split <;> exact ⟨_, rfl⟩

namespace Build

/-- A spelling that the source replaces plays no part. -/
theorem expectedLeaf_of_unchecked (h : Unchecked set.source offset expected.utf8ByteSize) :
    expectedLeaf set offset expected kind type fields =
      leaf set offset (passVisible set.source offset expected.utf8ByteSize) kind type fields := by
  unfold expectedLeaf
  rw [expectedStop?_of_unchecked h]
  rfl

/-- Any other spelling is what the leaf shows. -/
theorem expectedLeaf_shows (h : ¬Unchecked set.source offset expected.utf8ByteSize) :
    Yields (expectedLeaf set offset expected kind type fields) d fun x d' => ∀ i ∈ x,
      (d'.tree.node i).token.map (·.text) = some expected := by
  refine .bind (ofExcept_yields fun x hx => ?_)
  cases x with
  | none => exact .pure (by simp)
  | some stop =>
    obtain ⟨-, hslice⟩ := of_expectedStop? h hx
    refine leaf_yields.mono ?_
    rintro _ _ (⟨rfl, -⟩ | ⟨n, hn, rfl, rfl⟩) i hi
    · cases hi
    · obtain rfl := Option.some.inj hi
      obtain ⟨range, text, htoken, htext⟩ := hn.token_eq
      have hnode : (d.add n).tree.node d.tree.size = n := Tree.node_push_size
      rw [hnode, htoken, ← hslice, slice, htext, Option.getD_some, Option.map_some]

/-- In strict mode, another text where a spelling is compared is an error. -/
theorem expectedLeaf_error (h : ¬Unchecked set.source offset expected.utf8ByteSize)
    (hstrict : set.strict = true)
    (htext : slice? set.source offset (offset + expected.utf8ByteSize) ≠ some expected) :
    ∃ e, expectedLeaf set offset expected kind type fields d = .error e d := by
  cases hstop : expectedStop? set offset expected with
  | error e => exact ⟨e, by simp [expectedLeaf, hstop, ofExcept, Bind.bind, EStateM.bind]⟩
  | ok x =>
    cases x with
    | none =>
      rw [expectedStop?_of_checked h] at hstop
      simp only [hstrict, if_true] at hstop
      split at hstop
      · cases hstop
      · split at hstop <;> cases hstop
    | some stop =>
      obtain ⟨rfl, hslice⟩ := of_expectedStop? h hstop
      have hnone : slice? set.source offset (offset + expected.utf8ByteSize) = none := by
        cases hsome : slice? set.source offset (offset + expected.utf8ByteSize) with
        | none => rfl
        | some text =>
          rw [slice, hsome] at hslice
          exact absurd (hsome.trans (congrArg some hslice)) htext
      obtain ⟨e, he⟩ : ∃ e, leafNode? set offset (offset + expected.utf8ByteSize) kind type fields =
          .error e := leafNode?_error hstrict hnone
      exact ⟨e, by simp [expectedLeaf, leaf, hstop, he, ofExcept, Bind.bind, EStateM.bind]⟩

/-- Unless the source stands in for it, a leaf of known spelling shows its spelling, and in strict mode
any other text in its place is an error. Where the source does stand in, the leaf shows whatever the
source has there, in either mode. -/
theorem expectedLeaf_checks (set : Setting) (offset : Nat) (expected : String) (kind : TokenKind)
    (type : NodeType) (fields : Fields) (d : Draft) :
    (¬Unchecked set.source offset expected.utf8ByteSize →
      (∀ i d', expectedLeaf set offset expected kind type fields d = .ok (some i) d' →
        (d'.tree.node i).token.map (·.text) = some expected) ∧
      (set.strict = true →
        slice? set.source offset (offset + expected.utf8ByteSize) ≠ some expected →
        ∃ e, expectedLeaf set offset expected kind type fields d = .error e d)) ∧
    (Unchecked set.source offset expected.utf8ByteSize →
      expectedLeaf set offset expected kind type fields =
        leaf set offset (passVisible set.source offset expected.utf8ByteSize) kind type fields) :=
  ⟨fun h => ⟨fun i d' hleaf => expectedLeaf_shows h (some i) d' hleaf i rfl, expectedLeaf_error h⟩,
    expectedLeaf_of_unchecked⟩

/-- A source in strict mode with a carriage return. -/
def returnSetting : Setting := ⟨.ofText "m.go" "fu\rnc x y", true⟩

theorem expectedLeaf_checks_returnSetting :
    ¬Unchecked returnSetting.source 6 1 ∧
      (∃ i d', expectedLeaf returnSetting 6 "x" .other .native .empty .empty = .ok (some i) d' ∧
        (d'.tree.node i).token.map (·.text) = some "x") ∧
      (∃ e, expectedLeaf returnSetting 6 "y" .other .native .empty .empty = .error e .empty) ∧
      Unchecked returnSetting.source 0 4 ∧
      expectedLeaf returnSetting 0 "type" .keyword .native .empty =
        leaf returnSetting 0 5 .keyword .native .empty := by
  have hchecked : ¬Unchecked returnSetting.source 6 1 := by decide +kernel
  have hunchecked : Unchecked returnSetting.source 0 4 := by decide +kernel
  have hreached : passVisible returnSetting.source 0 4 = 5 := by decide +kernel
  have hother : slice? returnSetting.source 6 7 ≠ some "y" := by decide +kernel
  have hrun : attains (expectedLeaf returnSetting 6 "x" .other .native .empty) .empty
      (fun x _ => x.isSome) = true := by
    decide +kernel
  obtain ⟨x, d', hleaf, hsome⟩ := exists_of_attains hrun
  obtain ⟨i, rfl⟩ := Option.isSome_iff_exists.mp hsome
  obtain ⟨hx, -⟩ := expectedLeaf_checks returnSetting 6 "x" .other .native .empty .empty
  obtain ⟨hy, -⟩ := expectedLeaf_checks returnSetting 6 "y" .other .native .empty .empty
  obtain ⟨-, htype⟩ := expectedLeaf_checks returnSetting 0 "type" .keyword .native .empty .empty
  exact ⟨hchecked, ⟨i, d', hleaf, (hx hchecked).1 i d' hleaf⟩, (hy hchecked).2 rfl hother, hunchecked,
    (htype hunchecked).trans (by rw [← hreached]; rfl)⟩

/-- In strict mode, a token is made for a keyword that the source does not show, and one for a keyword
that is longer than the rest of the source. -/
theorem expectedToken_unchecked :
    (∃ x d, expectedToken returnSetting 0 "type" "" .keyword .empty = .ok x d ∧
      (x.bind fun i => (d.tree.node i).token.map (·.text)) = some "fu\rnc") ∧
    withoutCarriageReturns "fu\rnc" ≠ withoutCarriageReturns "type" ∧
    (∃ x d, expectedToken returnSetting 8 "chan" "" .keyword .empty = .ok x d ∧
      (x.bind fun i => (d.tree.node i).token.map (·.text)) = some "y") ∧
    withoutCarriageReturns "y" ≠ withoutCarriageReturns "chan" := by
  have hfirst : attains (expectedToken returnSetting 0 "type" "" .keyword) .empty (fun x d =>
      (x.bind fun i => (d.tree.node i).token.map (·.text)) = some "fu\rnc") = true := by
    decide +kernel
  have hlast : attains (expectedToken returnSetting 8 "chan" "" .keyword) .empty (fun x d =>
      (x.bind fun i => (d.tree.node i).token.map (·.text)) = some "y") = true := by
    decide +kernel
  obtain ⟨x, d, hx, htext⟩ := exists_of_attains hfirst
  obtain ⟨x', d', hx', htext'⟩ := exists_of_attains hlast
  exact ⟨⟨x, d, hx, of_decide_eq_true htext⟩, by decide +kernel,
    ⟨x', d', hx', of_decide_eq_true htext'⟩, by decide +kernel⟩

end Build

end LosslessGo
