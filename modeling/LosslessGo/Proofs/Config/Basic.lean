import Mathlib.Data.List.Basic
import LosslessGo.Config.Basic

/-!
# Configurations over each other

* `IsTopmost`: the value of the highest of some layers that gives one.
* `Config.IsMerged`: each setting by itself has such a value, and `IsMerged.above`: a configuration that is
  put over others comes before them.
* `Config.validate_eq_ok_iff`: which configurations are admitted.
-/

namespace LosslessGo

/-! ## Layers of values -/

/-- `v` is the value of the first layer that gives one, and no value if none does. Layers are listed from
the highest down. -/
def IsTopmost {α : Type} (layers : List (Option α)) (v : Option α) : Prop :=
  ∀ a, v = some a ↔ ∃ higher lower, layers = higher ++ some a :: lower ∧ ∀ x ∈ higher, x = none

namespace IsTopmost

variable {α : Type} {layers : List (Option α)} {v : Option α}

theorem nil : IsTopmost ([] : List (Option α)) none := by
  intro a
  simp

/-- One more layer on top. -/
theorem or (h : IsTopmost layers v) (x : Option α) : IsTopmost (x :: layers) (x.or v) := by
  intro a
  cases x with
  | some b =>
    rw [Option.some_or]
    constructor
    · rintro ⟨⟩
      exact ⟨[], layers, rfl, fun x hx => absurd hx List.not_mem_nil⟩
    · rintro ⟨higher, lower, heq, hnone⟩
      cases higher with
      | nil => exact (List.cons.inj heq).1
      | cons y higher =>
        rw [hnone y List.mem_cons_self] at heq
        cases (List.cons.inj heq).1
  | none =>
    rw [Option.none_or, h a]
    constructor
    · rintro ⟨higher, lower, rfl, hnone⟩
      exact ⟨none :: higher, lower, rfl, List.forall_mem_cons.mpr ⟨rfl, hnone⟩⟩
    · rintro ⟨higher, lower, heq, hnone⟩
      cases higher with
      | nil => cases (List.cons.inj heq).1
      | cons y higher =>
        exact ⟨higher, lower, (List.cons.inj heq).2, (List.forall_mem_cons.mp hnone).2⟩

end IsTopmost

namespace Config

variable {c : Config} {layers : List Config} {s : String}

/-! ## Layers of configurations -/

/-- Each setting is that of the highest configuration that has it, whatever the others are. -/
structure IsMerged (layers : List Config) (c : Config) : Prop where
  strict : IsTopmost (layers.map (·.strict)) c.strict
  describe : IsTopmost (layers.map (·.describe)) c.describe
  indent : IsTopmost (layers.map (·.indent)) c.indent
  threads : IsTopmost (layers.map (·.threads)) c.threads

namespace IsMerged

theorem nil : IsMerged [] .empty := ⟨.nil, .nil, .nil, .nil⟩

theorem above (h : IsMerged layers c) (c' : Config) : IsMerged (c' :: layers) (c'.above c) :=
  ⟨h.strict.or c'.strict, h.describe.or c'.describe, h.indent.or c'.indent, h.threads.or c'.threads⟩

theorem singleton (c : Config) : IsMerged [c] c := by
  have habove : c.above .empty = c := by simp [Config.above, empty]
  have hmerged := nil.above c
  rwa [habove] at hmerged

end IsMerged

/-! ## Admitted configurations -/

/-- The indent consists of blanks and tabs, and there are not too many workers. -/
structure Admitted (c : Config) : Prop where
  indent : ∀ s, c.indent = some s → ∀ x ∈ s.toList, x = ' ' ∨ x = '\t'
  threads : ∀ n, c.threads = some n → n ≤ 1024

theorem isIndent_iff : isIndent s = true ↔ ∀ x ∈ s.toList, x = ' ' ∨ x = '\t' := by
  simp [isIndent]

theorem validate_eq_ok_iff : c.validate = .ok () ↔ c.Admitted := by
  have hvalidate : c.validate = .ok () ↔
      c.indent.all isIndent = true ∧ (c.threads.all (· ≤ maxThreads)) = true := by
    unfold validate
    cases c.indent.all isIndent <;> cases c.threads.all (· ≤ maxThreads) <;> simp
  rw [hvalidate, Option.all_eq_true, Option.all_eq_true]
  constructor
  · rintro ⟨hindent, hthreads⟩
    exact ⟨fun s hs => isIndent_iff.mp (hindent s hs), fun n hn => of_decide_eq_true (hthreads n hn)⟩
  · intro h
    exact ⟨fun s hs => isIndent_iff.mpr (h.indent s hs), fun n hn => decide_eq_true (h.threads n hn)⟩

end Config

end LosslessGo
