/-
  Hidden fields.

  A declared field is hidden if its tag is a lone dash, or if it is unexported and no untagged
  embedding; a tag without a name counts as none.  It is neither visible nor promoted
  (`FieldDecl.hidden_iff`), so the positions of a field that an index lists neither end at a
  hidden field nor lead through one (`Route.not_hides`).
-/
import DocPointer.Proofs.Fields.Routes

namespace DocPointer

/-- The tag hides the field, or the field is unexported and is no untagged embedding. -/
def FieldDecl.Hidden (f : FieldDecl) : Prop :=
  f.tag = some "-" ∨ f.exported = false ∧ ¬(f.naming = .plain ∧ f.embeds.isSome = true)

instance (f : FieldDecl) : Decidable f.Hidden := by unfold FieldDecl.Hidden; infer_instance

/-- The record `r` declares a hidden field at position `i`. -/
def Hides (F : Family) (r : String) (i : Nat) : Prop :=
  ∃ fs d, Members.get? r F = some fs ∧ fs[i]? = some d ∧ d.Hidden

instance (F : Family) (r : String) (i : Nat) : Decidable (Hides F r i) :=
  decidable_of_iff (∃ fs ∈ Members.get? r F, ∃ d ∈ fs[i]?, d.Hidden) (by simp [Hides])

theorem FieldDecl.naming_eq_hidden {f : FieldDecl} : f.naming = .hidden ↔ f.tag = some "-" := by
  cases ht : f.tag with
  | none => simp [naming, ht]
  | some tag =>
    by_cases hdash : tag = "-"
    · simp [naming, ht, hdash]
    · by_cases hname : tagName tag = "" <;> simp [naming, ht, hdash, hname]

/-- Hidden fields are those that contribute nothing, or a name that is out of bounds. -/
theorem FieldDecl.hidden_iff (f : FieldDecl) :
    f.Hidden ↔ f.role = .nothing ∨ ∃ name, f.role = .unexported name := by
  rw [Hidden, ← naming_eq_hidden]
  cases hn : f.naming with
  | hidden => simp [role, hn]
  | plain => cases he : f.embeds <;> cases hx : f.exported <;> simp [role, hn, he, hx]
  | tagged name => cases hx : f.exported <;> simp [role, hn, hx]

variable {F : Family} {r s : String} {i : Nat} {path : List Nat}

/-- To the index a hidden field is nothing, or a name that is out of bounds. -/
theorem Hides.role {fs : List FieldDecl} {d : FieldDecl} (h : Hides F r i)
    (hr : Members.get? r F = some fs) (hd : fs[i]? = some d) :
    d.role = .nothing ∨ ∃ name, d.role = .unexported name := by
  obtain ⟨fs', d', hr', hd', hh⟩ := h
  obtain rfl : fs = fs' := Option.some.inj (hr.symm.trans hr')
  obtain rfl : d = d' := Option.some.inj (hd.symm.trans hd')
  exact d.hidden_iff.1 hh

theorem Hides.not_embeds (h : Hides F r i) : ¬Embeds F r i s := by
  rintro ⟨fs, d, hr, hd, hrole⟩
  rcases h.role hr hd with h | ⟨name, h⟩ <;> cases h.symm.trans hrole

theorem Hides.not_declares {name : String} {tagged : Bool} (h : Hides F r i) :
    ¬Declares F r i name tagged := by
  rintro ⟨fs, d, hr, hd, hrole⟩
  rcases h.role hr hd with h | ⟨name, h⟩ <;> cases h.symm.trans hrole

/-- **No position on the way to a visible field is that of a hidden one.** -/
theorem Route.not_hides (h : Route F r (i :: path)) : ¬Hides F r i := by
  intro hh
  cases h with
  | last hd => exact hh.not_declares hd
  | cons he _ => exact hh.not_embeds he

end DocPointer
