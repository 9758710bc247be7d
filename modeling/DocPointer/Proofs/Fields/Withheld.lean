/-
  Withheld fields, and what an index answers to their names.

  A declared field is withheld if it is unexported, and neither its tag hides it nor it promotes a
  record.  The flattening collects the identifiers of the withheld fields of all records that a
  chain leads to (`mem_unexported_iff`), each at the level that expands its record.  So a name
  that no visible field has is answered as out of bounds just if it is such an identifier
  (`lookup_withheld`), whatever the tags of these fields say.
-/
import DocPointer.Proofs.Fields.Hidden

namespace DocPointer

/-- The field is unexported, is not hidden by its tag, and is no untagged embedding. -/
def FieldDecl.Withheld (f : FieldDecl) : Prop :=
  f.exported = false ∧ f.tag ≠ some "-" ∧ ¬(f.naming = .plain ∧ f.embeds.isSome = true)

instance (f : FieldDecl) : Decidable f.Withheld := by unfold FieldDecl.Withheld; infer_instance

/-- The field is declared by the record `r`, or by one that is promoted into it. -/
def Includes (F : Family) (r : String) (f : FieldDecl) : Prop :=
  ∃ path s fs, Chain F r path s ∧ Members.get? s F = some fs ∧ f ∈ fs

/-- The name is the identifier of a withheld field of `r`. -/
def Withholds (F : Family) (r name : String) : Prop :=
  ∃ f, Includes F r f ∧ f.Withheld ∧ f.name = name

/-- A visible field has the name, exactly or up to case. -/
def FieldIndex.Sees (ix : FieldIndex) (name : String) : Prop :=
  ∃ f ∈ ix.fields, f.name = name ∨ Text.lower f.name = Text.lower name

namespace FieldDecl

/-- The withheld fields are those that contribute an identifier. -/
theorem role_eq_unexported {f : FieldDecl} {name : String} :
    f.role = .unexported name ↔ f.Withheld ∧ f.name = name := by
  rw [Withheld, Ne, ← naming_eq_hidden]
  cases hn : f.naming with
  | hidden => simp [role, hn]
  | plain => cases he : f.embeds <;> cases hx : f.exported <;> simp [role, hn, he, hx]
  | tagged tag => cases hx : f.exported <;> simp [role, hn, hx]

/-- Without a name in its tag a field has its identifier as name. -/
theorem jsonName_of_plain {f : FieldDecl} (h : f.naming = .plain) : f.jsonName = f.name := by
  rw [jsonName, h]

end FieldDecl

variable {F : Family} {r name : String} {n : Nat} {pool : Family} {level : List Promotion}

/-! ## Levels -/

theorem Flattening.mem_unexportedNames {fs : List FieldDecl} :
    name ∈ unexportedNames fs ↔ ∃ f ∈ fs, f.role = .unexported name := by
  rw [unexportedNames, List.mem_filterMap]
  refine exists_congr fun f => and_congr_right fun _ => ?_
  cases hr : f.role <;> simp

/-- The names that a level finds, in terms of the records it expands. -/
theorem Expansion.unexported_ofLevel (copies : String → Nat) (pool : Family)
    (level : List Promotion) : (ofLevel copies pool level).found.unexported =
      (expanded pool level).flatMap fun e => Flattening.unexportedNames e.2 := by
  induction level generalizing pool with
  | nil => rfl
  | cons e level ih =>
    obtain ⟨s, path⟩ := e
    cases hs : Members.get? s pool with
    | none =>
      simp only [ofLevel, expanded, hs]
      exact ih pool
    | some fs =>
      simp only [ofLevel, expanded, hs, Flattening.append, ih, List.flatMap_cons]

namespace IsLevel

/-- The names that the level `n` finds. -/
theorem mem_names (h : IsLevel F r n pool level) (copies : String → Nat) :
    name ∈ (Expansion.ofLevel copies pool level).found.unexported ↔
      ∃ s path fs f, Best F r path s ∧ path.length = n ∧ Members.get? s F = some fs ∧ f ∈ fs ∧
        f.role = .unexported name := by
  rw [Expansion.unexported_ofLevel, List.mem_flatMap]
  constructor
  · rintro ⟨⟨⟨s, path⟩, fs⟩, he, hname⟩
    obtain ⟨hs, hb, hl⟩ := h.mem_expanded_iff.1 he
    obtain ⟨f, hf, hrole⟩ := Flattening.mem_unexportedNames.1 hname
    exact ⟨s, path, fs, f, hb, hl, hs, hf, hrole⟩
  · rintro ⟨s, path, fs, f, hb, hl, hs, hf, hrole⟩
    exact ⟨((s, path), fs), h.mem_expanded_iff.2 ⟨hs, hb, hl⟩,
      Flattening.mem_unexportedNames.2 ⟨f, hf, hrole⟩⟩

/-- The names that the levels from `n` on find. -/
theorem mem_allNames (h : IsLevel F r n pool level) :
    name ∈ (Flattening.ofLevel pool level).unexported ↔
      ∃ s path fs f, Best F r path s ∧ n ≤ path.length ∧ Members.get? s F = some fs ∧ f ∈ fs ∧
        f.role = .unexported name := by
  fun_induction Flattening.ofLevel pool level generalizing n with
  | case1 pool level out =>
    rw [h.mem_names]
    constructor
    · rintro ⟨s, path, fs, f, hbest, hl, hf⟩
      exact ⟨s, path, fs, f, hbest, Nat.le_of_eq hl.symm, hf⟩
    · rintro ⟨s, path, fs, f, hbest, hl, hf⟩
      exact ⟨s, path, fs, f, hbest, Nat.le_antisymm (h.le_of_below_eq_nil _ ‹_› hbest) hl, hf⟩
  | case2 pool level out hb =>
    rename_i ih
    rw [Flattening.append, List.mem_append, h.mem_names, ih (h.below _)]
    constructor
    · rintro (⟨s, path, fs, f, hbest, hl, hf⟩ | ⟨s, path, fs, f, hbest, hl, hf⟩)
      · exact ⟨s, path, fs, f, hbest, Nat.le_of_eq hl.symm, hf⟩
      · exact ⟨s, path, fs, f, hbest, Nat.le_of_succ_le hl, hf⟩
    · rintro ⟨s, path, fs, f, hbest, hl, hf⟩
      rcases Nat.eq_or_lt_of_le hl with hl | hl
      · exact .inl ⟨s, path, fs, f, hbest, hl.symm, hf⟩
      · exact .inr ⟨s, path, fs, f, hbest, hl, hf⟩

end IsLevel

/-! ## The index -/

/-- **The names out of bounds are the identifiers of the withheld fields** of all records that are
    promoted, however they are. -/
theorem mem_unexported_iff (hF : (Members.names F).Nodup) :
    name ∈ (FieldIndex.build F r).unexported ↔ Withholds F r name := by
  rw [FieldIndex.build, FieldIndex.ofFlattening, (IsLevel.zero hF).mem_allNames]
  constructor
  · rintro ⟨s, path, fs, f, hbest, -, hs, hf, hrole⟩
    obtain ⟨hw, hname⟩ := FieldDecl.role_eq_unexported.1 hrole
    exact ⟨f, ⟨path, s, fs, hbest.1, hs, hf⟩, hw, hname⟩
  · rintro ⟨f, ⟨path, s, fs, hc, hs, hf⟩, hw, hname⟩
    obtain ⟨best, hbest⟩ := exists_best hF hc
    exact ⟨s, best, fs, f, hbest, Nat.zero_le _, hs, hf,
      FieldDecl.role_eq_unexported.2 ⟨hw, hname⟩⟩

/-- A name that no visible field has is out of bounds or missing. -/
theorem FieldIndex.lookup_of_not_sees {ix : FieldIndex} (h : ¬ix.Sees name) :
    ix.lookup name = if name ∈ ix.unexported then .unexported else .missing := by
  have hexact : ix.fields.find? (·.name = name) = none := by
    rw [List.find?_eq_none]
    intro f hf hname
    exact h ⟨f, hf, .inl (of_decide_eq_true hname)⟩
  have hfolded : ix.fields.find? (fun f => Text.lower f.name = Text.lower name) = none := by
    rw [List.find?_eq_none]
    intro f hf hname
    exact h ⟨f, hf, .inr (of_decide_eq_true hname)⟩
  simp only [lookup, hexact, hfolded]

/-- **A name that no visible field has is known to be out of bounds** if it is the identifier of a
    withheld field, and else it is missing. -/
theorem lookup_withheld (hF : (Members.names F).Nodup)
    (h : ¬(FieldIndex.build F r).Sees name) :
    (Withholds F r name → (FieldIndex.build F r).lookup name = .unexported) ∧
      (¬Withholds F r name → (FieldIndex.build F r).lookup name = .missing) := by
  rw [FieldIndex.lookup_of_not_sees h, ← mem_unexported_iff hF]
  exact ⟨fun hw => if_pos hw, fun hw => if_neg hw⟩

end DocPointer
