/-
  Storing: what a slot holds afterwards.

  A slot that refuses a value is as it was (`store_atomic`, `deliver_atomic`) and says what it
  is unfit for (`unfit_of_deliver`), and a slot that takes one keeps its type (`typeOf_store`).
-/
import DocPointer.Proofs.Document.Faces
import DocPointer.Proofs.Document.Typing

namespace DocPointer

/-! ## Attempts -/

/-- A change that leaves a value as it was if it fails. -/
def Atomic {ε : Type} (f : Val → Attempt ε) : Prop := ∀ v e w, f v = (.error e, w) → w = v

namespace Attempt

variable {ε : Type} {out : Attempt ε} {back undo : Val → Val} {e : ε} {w : Val}

theorem inside_eq (out : Attempt ε) (back : Val → Val) : out.inside back = out.within back back := by
  obtain ⟨_ | _, v⟩ := out <;> rfl

theorem within_error (h : out.within back undo = (.error e, w)) :
    ∃ u, out = (.error e, u) ∧ w = undo u := by
  obtain ⟨_ | _, u⟩ := out
  · cases h
    exact ⟨u, rfl, rfl⟩
  · cases h

theorem within_ok (h : out.within back undo = (.ok (), w)) :
    ∃ u, out = (.ok (), u) ∧ w = back u := by
  obtain ⟨_ | _, u⟩ := out
  · cases h
  · cases h
    exact ⟨u, rfl, rfl⟩

theorem inside_error (h : out.inside back = (.error e, w)) :
    ∃ u, out = (.error e, u) ∧ w = back u :=
  within_error (inside_eq out back ▸ h)

theorem inside_ok (h : out.inside back = (.ok (), w)) : ∃ u, out = (.ok (), u) ∧ w = back u :=
  within_ok (inside_eq out back ▸ h)

end Attempt

open Attempt

namespace Schema

variable {Γ : Schema}

/-! ## Refusing -/

theorem settleBare_atomic (x : Val) : Atomic (Γ.settleBare · x) := by
  intro slot e w h
  simp only [settleBare] at h
  split at h
  · split at h <;> cases h
    rfl
  · cases h; rfl
  · cases h; rfl

theorem settle_atomic (x : Val) : Atomic (Γ.settle · x) := by
  intro slot e w h
  simp only [settle] at h
  split at h
  · obtain ⟨u, hu, rfl⟩ := within_error h
    rw [settleBare_atomic x _ e u hu, cleared]
  · exact settleBare_atomic x slot e w h

/-- A new slot that refuses a value holds the zero value of its type. -/
theorem fill_error (t : Ty) (x : Val) {e : Refusal} {w : Val} (h : Γ.fill t x = (.error e, w)) :
    w = Γ.zero t := by
  fun_induction Γ.fill t x generalizing e w with
  | case1 => cases h
  | case2 => cases h; rfl
  | case3 t _ ih =>
    obtain ⟨u, hu, rfl⟩ := within_error h
    rw [ih hu, cleared, typeOf_zero, zero]
  | case4 t _ ih =>
    obtain ⟨u, hu, rfl⟩ := inside_error h
    rw [ih hu, zero]
  | case5 => exact settle_atomic x _ e w h

/-- **A slot that refuses a value is as it was.** -/
theorem store_atomic (x : Val) : Atomic (Γ.store · x) := by
  intro slot e w h
  simp only at h
  fun_induction Γ.store slot x generalizing e w with
  | case1 => cases h
  | case2 => cases h; rfl
  | case3 t =>
    obtain ⟨u, hu, rfl⟩ := within_error h
    rw [fill_error t x hu, cleared, typeOf_zero]
  | case4 v _ ih | case5 v _ ih =>
    obtain ⟨u, hu, rfl⟩ := inside_error h
    rw [ih e u hu]
  | case6 => exact settle_atomic x _ e w h

/-- What is not delivered is refused by the slot at one of its targets. -/
theorem deliver_error {slot x w : Val} {e : Refusal} (h : Γ.deliver slot x = (.error e, w)) :
    ∃ y, Γ.store slot y = (.error e, w) := by
  induction x using Val.target.induct with
  | case1 y ih | case2 y ih | case3 y ih =>
    rw [deliver] at h
    split at h
    · cases h
    · next hs =>
      split at h
      · -- the target is tried on the slot as it was
        rw [store_atomic _ _ _ _ hs] at h
        exact ih h
      · cases h
        exact ⟨_, hs⟩
  | case4 x hp hb hh =>
    rw [deliver] at h
    split at h
    · cases h
    · next hs =>
      split at h
      · split at h
        · exact absurd rfl (hp _)
        · exact absurd rfl (hb _)
        · exact absurd rfl (hh _)
        · cases h
          exact ⟨_, hs⟩
      · cases h
        exact ⟨_, hs⟩

/-- **A slot that refuses a value and all that the value leads to is as it was.** -/
theorem deliver_atomic (x : Val) : Atomic (Γ.deliver · x) := by
  intro slot e w h
  obtain ⟨y, hy⟩ := deliver_error h
  exact store_atomic y slot e w hy

/-! ## Causes -/

/-- Why a slot refuses a value: it is of another type, or it has no JSON form or the slot no
    decoded one, or the slot is a pointer whose target is out of reach. -/
inductive Unfit : Fault → Prop where
  | notAssignable (expected value : Ty) : Unfit (.notAssignable expected value)
  | codec : Unfit .codec
  | nilInterface : Unfit .nilInterface

section
variable {slot x w : Val} {t : Ty} {e : Refusal}

theorem unfit_of_offer (h : Γ.offer t x = some (.error e)) : Unfit e.fault := by
  simp only [offer, crosses] at h
  repeat' split at h
  all_goals cases h
  all_goals constructor

theorem unfit_of_settle (h : Γ.settle slot x = (.error e, w)) : Unfit e.fault := by
  have hbare {slot w : Val} (h : Γ.settleBare slot x = (.error e, w)) : Unfit e.fault := by
    simp only [settleBare] at h
    split at h
    · split at h <;> cases h
      exact .codec
    · cases h
      exact .nilInterface
    · cases h
      exact .notAssignable _ _
  simp only [settle] at h
  split at h
  · obtain ⟨u, hu, -⟩ := within_error h
    exact hbare hu
  · exact hbare h

theorem unfit_of_fill (h : Γ.fill t x = (.error e, w)) : Unfit e.fault := by
  fun_induction Γ.fill t x generalizing w with
  | case1 => cases h
  | case2 t r ho =>
    cases h
    exact unfit_of_offer ho
  | case3 t _ ih =>
    obtain ⟨u, hu, -⟩ := within_error h
    exact ih hu
  | case4 t _ ih =>
    obtain ⟨u, hu, -⟩ := inside_error h
    exact ih hu
  | case5 => exact unfit_of_settle h

theorem unfit_of_store (h : Γ.store slot x = (.error e, w)) : Unfit e.fault := by
  fun_induction Γ.store slot x generalizing w with
  | case1 => cases h
  | case2 slot r ho =>
    cases h
    exact unfit_of_offer ho
  | case3 t =>
    obtain ⟨u, hu, -⟩ := within_error h
    exact unfit_of_fill hu
  | case4 v _ ih | case5 v _ ih =>
    obtain ⟨u, hu, -⟩ := inside_error h
    exact ih hu
  | case6 => exact unfit_of_settle h

/-- **What is not delivered is unfit for the slot.** -/
theorem unfit_of_deliver (h : Γ.deliver slot x = (.error e, w)) : Unfit e.fault := by
  obtain ⟨y, hy⟩ := deliver_error h
  exact unfit_of_store hy

end

/-! ## Taking -/

/-- A slot that settles a value is a region, and takes the encoding. -/
theorem settle_ok {slot x v : Val} (h : Γ.settle slot x = (.ok (), v)) :
    slot.typeOf = .raw ∧ ∃ j, Γ.encode x = some j ∧ v = .raw j.toBytes := by
  have hbare {slot v : Val} (h : Γ.settleBare slot x = (.ok (), v)) :
      slot.typeOf = .raw ∧ ∃ j, Γ.encode x = some j ∧ v = .raw j.toBytes := by
    simp only [settleBare] at h
    split at h
    · next hs =>
      split at h
      · next j hj =>
        cases h
        rw [eq_of_node_raw hs]
        exact ⟨rfl, j, hj, rfl⟩
      · cases h
    · cases h
    · cases h
  simp only [settle] at h
  split at h
  · obtain ⟨u, hu, -⟩ := within_ok h
    cases (hbare hu).1
  · exact hbare h

theorem typeOf_settle {slot x v : Val} (h : Γ.settle slot x = (.ok (), v)) :
    v.typeOf = slot.typeOf := by
  obtain ⟨hs, j, -, rfl⟩ := settle_ok h
  exact hs.symm

theorem typeOf_fill {t : Ty} {x v : Val} (h : Γ.fill t x = (.ok (), v)) : v.typeOf = t := by
  fun_induction Γ.fill t x generalizing v with
  | case1 => cases h; exact typeOf_offer ‹_›
  | case2 => cases h
  | case3 t _ ih =>
    obtain ⟨u, hu, rfl⟩ := within_ok h
    rw [Val.typeOf, ih hu]
  | case4 t _ ih =>
    obtain ⟨u, hu, rfl⟩ := inside_ok h
    rw [Val.typeOf, ih hu]
  | case5 t => rw [typeOf_settle h, typeOf_zero]

/-- **A slot keeps its type.** -/
theorem typeOf_store {slot x v : Val} (h : Γ.store slot x = (.ok (), v)) :
    v.typeOf = slot.typeOf := by
  fun_induction Γ.store slot x generalizing v with
  | case1 => cases h; exact typeOf_offer ‹_›
  | case2 => cases h
  | case3 t =>
    obtain ⟨u, hu, rfl⟩ := within_ok h
    simp only [Val.typeOf, typeOf_fill hu]
  | case4 v _ ih | case5 v _ ih =>
    obtain ⟨u, hu, rfl⟩ := inside_ok h
    simp only [Val.typeOf, ih hu]
  | case6 => exact typeOf_settle h

end Schema

end DocPointer
