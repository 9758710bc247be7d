/-
  What an index lists, in which order, and what it answers.

  The search finds a field once for each name, and the index sorts the fields by their positions
  (`pairwise_sortByIndex`); two fields of one position would be one field, so the order is strict.
  The positions of a field lead from the record through untagged embeddings to a declared field
  (`Descends`), which has the name of the field (`descends_of_mem_build`).

  * `Denotes`: what a name stands for, in terms of the listed fields and their positions, whatever
    the order of the list: the field of exactly that name, else the first one up to case, else
    a name that is out of bounds or missing.
  * `lookup_eq_iff`: the index answers with what the name denotes.
  * `build_wellformed`: all that holds of an index.
-/
import Mathlib.Data.List.Nodup
import DocPointer.Proofs.Fields.Withheld

namespace DocPointer

/-- The positions lead from the record `r` through untagged embeddings to the declared field
    `d`. -/
inductive Descends (F : Family) : String → List Nat → FieldDecl → Prop where
  | last {r : String} {fs : List FieldDecl} {i : Nat} {d : FieldDecl} :
      Members.get? r F = some fs → fs[i]? = some d → Descends F r [i] d
  | through {r s : String} {fs : List FieldDecl} {k : Nat} {e d : FieldDecl} {path : List Nat} :
      Members.get? r F = some fs → fs[k]? = some e → e.naming = .plain → e.embeds = some s →
        Descends F s path d → Descends F r (k :: path) d

/-- What a name stands for: the field of exactly that name, else the first of those whose name is
    the same up to case, and else a name that is out of bounds if a withheld field has it. -/
inductive Denotes (F : Family) (r name : String) : FieldLookup → Prop where
  | exact {f : Field} :
      f ∈ (FieldIndex.build F r).fields → f.name = name → Denotes F r name (.field f)
  | folded {f : Field} :
      (∀ g ∈ (FieldIndex.build F r).fields, g.name ≠ name) →
        f ∈ (FieldIndex.build F r).fields → Text.lower f.name = Text.lower name →
          (∀ g ∈ (FieldIndex.build F r).fields, Text.lower g.name = Text.lower name →
            ¬g.index < f.index) → Denotes F r name (.field f)
  | unexported :
      ¬(FieldIndex.build F r).Sees name → Withholds F r name → Denotes F r name .unexported
  | missing :
      ¬(FieldIndex.build F r).Sees name → ¬Withholds F r name → Denotes F r name .missing

namespace FieldDecl

/-- An embedding promotes if its tag, if it has one, gives no name and does not hide it. -/
theorem role_eq_promotes {d : FieldDecl} {s : String} :
    d.role = .promotes s ↔ d.naming = .plain ∧ d.embeds = some s := by
  cases hn : d.naming with
  | hidden => simp [role, hn]
  | plain => cases he : d.embeds <;> cases hx : d.exported <;> simp [role, hn, he, hx]
  | tagged tag => cases hx : d.exported <;> simp [role, hn, hx]

/-- A visible field is exported, is not hidden by its tag, and has its name in documents. -/
theorem of_role_visible {d : FieldDecl} {name : String} {tagged : Bool}
    (h : d.role = .visible name tagged) :
    d.exported = true ∧ d.tag ≠ some "-" ∧ d.jsonName = name := by
  rw [Ne, ← naming_eq_hidden]
  cases hn : d.naming with
  | hidden => simp [role, hn] at h
  | plain =>
    cases he : d.embeds <;> cases hx : d.exported <;> simp [role, hn, he, hx] at h
    simp [jsonName, hn, h.1]
  | tagged tag =>
    cases hx : d.exported <;> simp [role, hn, hx] at h
    simp [jsonName, hn, h.1]

end FieldDecl

variable {F : Family} {r name : String} {f g : Field} {fs : List Field}

/-! ## Positions -/

theorem pairwise_insertByIndex (f : Field) (h : fs.Pairwise fun a b => ¬b.index < a.index) :
    (insertByIndex f fs).Pairwise fun a b => ¬b.index < a.index := by
  induction fs with
  | nil => exact List.pairwise_singleton _ _
  | cons g fs ih =>
    obtain ⟨hg, hfs⟩ := List.pairwise_cons.1 h
    rw [insertByIndex]
    split
    · next hlt =>
      refine List.pairwise_cons.2 ⟨?_, ih hfs⟩
      intro b hb
      rcases List.mem_cons.1 ((insertByIndex_perm f fs).mem_iff.1 hb) with rfl | hb
      · exact List.lt_asymm hlt
      · exact hg b hb
    · next hge =>
      refine List.pairwise_cons.2 ⟨?_, h⟩
      intro b hb
      rcases List.mem_cons.1 hb with rfl | hb
      · exact hge
      · exact not_lt_trans hge (hg b hb)

/-- Sorted fields come in the order of their positions. -/
theorem pairwise_sortByIndex (fs : List Field) :
    (sortByIndex fs).Pairwise fun a b => ¬b.index < a.index := by
  induction fs with
  | nil => exact .nil
  | cons f fs ih => exact pairwise_insertByIndex f ih

/-- A chain in front of what leads to a declared field leads there. -/
theorem Chain.descends {path rest : List Nat} {s : String} {d : FieldDecl} (h : Chain F r path s)
    (hs : Descends F s rest d) : Descends F r (path ++ rest) d := by
  induction h generalizing rest with
  | nil => exact hs
  | snoc hc he ih =>
    rw [List.append_assoc]
    obtain ⟨fs, e, hp, hk, hrole⟩ := he
    obtain ⟨hn, hembeds⟩ := FieldDecl.role_eq_promotes.1 hrole
    exact ih (.through hp hk hn hembeds hs)

/-! ## The index -/

section
variable (hF : (Members.names F).Nodup)
include hF

theorem candidate_of_mem_build (h : f ∈ (FieldIndex.build F r).fields) : Candidate F r f :=
  candidate_of_found hF (found_of_mem_build h)

/-- Fields of an index with the same positions are the same. -/
theorem eq_of_index_eq (hf : f ∈ (FieldIndex.build F r).fields)
    (hg : g ∈ (FieldIndex.build F r).fields) (h : f.index = g.index) : f = g :=
  (candidate_of_mem_build hF hf).ext (candidate_of_mem_build hF hg) h

/-- **The fields of an index are strictly sorted by their positions.** -/
theorem pairwise_build (r : String) :
    (FieldIndex.build F r).fields.Pairwise fun f g => f.index < g.index := by
  have hnames := List.pairwise_map.1 (nodup_build F r)
  have hsorted : (FieldIndex.build F r).fields.Pairwise fun f g => ¬g.index < f.index :=
    pairwise_sortByIndex _
  refine (hnames.and hsorted).imp_of_mem ?_
  rintro f g hf hg ⟨hne, hle⟩
  refine Decidable.of_not_not fun hlt => hne ?_
  rw [eq_of_index_eq hF hf hg (eq_of_not_lt hlt hle)]

/-- **The positions of no field go on where those of another end.** -/
theorem eq_of_index_prefix (hf : f ∈ (FieldIndex.build F r).fields)
    (hg : g ∈ (FieldIndex.build F r).fields) (h : f.index <+: g.index) : f = g :=
  eq_of_index_eq hF hf hg
    ( Route.eq_of_prefix (route_of_mem_build hF hf) (route_of_mem_build hF hg) h)

/-- **The positions of a field lead to a declared field of its name.** -/
theorem descends_of_mem_build (h : f ∈ (FieldIndex.build F r).fields) :
    ∃ d, Descends F r f.index d ∧ d.exported = true ∧ d.tag ≠ some "-" ∧ d.jsonName = f.name := by
  obtain ⟨path, s, i, hc, ⟨fs, d, hs, hd, hrole⟩, hi⟩ := candidate_of_mem_build hF h
  rw [hi]
  exact ⟨d, hc.descends (.last hs hd), FieldDecl.of_role_visible hrole⟩

end

/-! ## Names -/

/-- Fields of an index with the same name are the same. -/
theorem eq_of_name_eq (hf : f ∈ (FieldIndex.build F r).fields)
    (hg : g ∈ (FieldIndex.build F r).fields) (h : f.name = g.name) : f = g :=
  List.inj_on_of_nodup_map (nodup_build F r) hf hg h

/-- A name stands where the field of that name does. -/
theorem position?_eq_some {i : Nat} : (FieldIndex.build F r).position? name = some i ↔
    ∃ f, (FieldIndex.build F r).fields[i]? = some f ∧ f.name = name := by
  rw [FieldIndex.position?, List.findIdx?_eq_some_iff_getElem]
  constructor
  · rintro ⟨hi, hname, -⟩
    exact ⟨_, List.getElem?_eq_getElem hi, of_decide_eq_true hname⟩
  · rintro ⟨f, hf, rfl⟩
    obtain ⟨hi, rfl⟩ := List.getElem?_eq_some_iff.1 hf
    refine ⟨hi, decide_eq_true rfl, ?_⟩
    intro j hj hname
    have hnames := List.pairwise_iff_getElem.1 (List.pairwise_map.1 (nodup_build F r))
    exact hnames j i (by omega) hi hj (of_decide_eq_true hname)

/-- The first of some fields in the order of their positions comes before the others. -/
theorem not_index_lt_of_find? {p : Field → Bool} (h : fs.Pairwise fun f g => f.index < g.index)
    (hf : fs.find? p = some f) (hg : g ∈ fs) (hp : p g = true) : ¬g.index < f.index := by
  obtain ⟨-, before, after, rfl, hbefore⟩ := List.find?_eq_some_iff_append.1 hf
  obtain ⟨-, hafter, -⟩ := List.pairwise_append.1 h
  rcases List.mem_append.1 hg with hg | hg
  · exact absurd hp (by simpa using hbefore g hg)
  · rcases List.mem_cons.1 hg with rfl | hg
    · exact List.lt_irrefl _
    · exact List.lt_asymm ((List.pairwise_cons.1 hafter).1 g hg)

section
variable (hF : (Members.names F).Nodup)
include hF

/-- The index answers with what the name denotes. -/
theorem denotes_lookup (r name : String) :
    Denotes F r name ((FieldIndex.build F r).lookup name) := by
  rw [FieldIndex.lookup]
  cases hexact : (FieldIndex.build F r).fields.find? (·.name = name) with
  | some f =>
    have hname : f.name = name := by simpa using List.find?_some hexact
    exact .exact (List.mem_of_find?_eq_some hexact) hname
  | none =>
    have hne (g : Field) (hg : g ∈ (FieldIndex.build F r).fields) : g.name ≠ name := by
      simpa using List.find?_eq_none.1 hexact g hg
    dsimp only
    cases hfolded : (FieldIndex.build F r).fields.find?
        (fun f => Text.lower f.name = Text.lower name) with
    | some f =>
      refine .folded hne (List.mem_of_find?_eq_some hfolded)
        (by simpa using List.find?_some hfolded) ?_
      intro g hg hname
      exact not_index_lt_of_find? (pairwise_build hF r) hfolded hg (decide_eq_true hname)
    | none =>
      have hsees : ¬(FieldIndex.build F r).Sees name := by
        rintro ⟨g, hg, hname | hname⟩
        · exact hne g hg hname
        · exact List.find?_eq_none.1 hfolded g hg (decide_eq_true hname)
      dsimp only
      split
      · next h => exact .unexported hsees ((mem_unexported_iff hF).1 h)
      · next h => exact .missing hsees fun hw => h ((mem_unexported_iff hF).2 hw)

/-- A name denotes no more than one thing. -/
theorem Denotes.unique {a b : FieldLookup} (ha : Denotes F r name a) (hb : Denotes F r name b) :
    a = b := by
  cases ha with
  | @exact f hf hfn =>
    cases hb with
    | exact hg hgn => rw [eq_of_name_eq hf hg (hfn.trans hgn.symm)]
    | folded hne => exact absurd hfn (hne f hf)
    | unexported hsees | missing hsees => exact absurd ⟨f, hf, .inl hfn⟩ hsees
  | @folded f hne hf hfn hfirst =>
    cases hb with
    | @exact g hg hgn => exact absurd hgn (hne g hg)
    | @folded g _ hg hgn hgfirst =>
      rw [eq_of_index_eq hF hf hg (eq_of_not_lt (hgfirst f hf hfn) (hfirst g hg hgn))]
    | unexported hsees | missing hsees => exact absurd ⟨f, hf, .inr hfn⟩ hsees
  | unexported hsees hw =>
    cases hb with
    | @exact g hg hgn => exact absurd ⟨g, hg, .inl hgn⟩ hsees
    | @folded g _ hg hgn => exact absurd ⟨g, hg, .inr hgn⟩ hsees
    | unexported => rfl
    | missing _ hn => exact absurd hw hn
  | missing hsees hn =>
    cases hb with
    | @exact g hg hgn => exact absurd ⟨g, hg, .inl hgn⟩ hsees
    | @folded g _ hg hgn => exact absurd ⟨g, hg, .inr hgn⟩ hsees
    | unexported _ hw => exact absurd hw hn
    | missing => rfl

/-- **An index answers a name** with what it denotes. -/
theorem lookup_eq_iff {a : FieldLookup} :
    (FieldIndex.build F r).lookup name = a ↔ Denotes F r name a := by
  constructor
  · rintro rfl
    exact denotes_lookup hF r name
  · exact (denotes_lookup hF r name).unique hF

end

/-- **An index is well formed**: it lists each name once, where `position?` finds it, in the
    strict order of positions of which none go on where others end; these lead through untagged
    embeddings to an exported field of that name.  It answers a name with the field of exactly
    that name, else with the first one up to case, and else says whether it is out of bounds. -/
theorem build_wellformed (hF : (Members.names F).Nodup) (r : String) :
    ((FieldIndex.build F r).fields.map (·.name)).Nodup ∧
      (∀ name i, (FieldIndex.build F r).position? name = some i ↔
        ∃ f, (FieldIndex.build F r).fields[i]? = some f ∧ f.name = name) ∧
      (FieldIndex.build F r).fields.Pairwise (fun f g => f.index < g.index) ∧
      (∀ f ∈ (FieldIndex.build F r).fields, ∀ g ∈ (FieldIndex.build F r).fields,
        f.index <+: g.index → f = g) ∧
      (∀ f ∈ (FieldIndex.build F r).fields, ∃ d, Descends F r f.index d ∧ d.exported = true ∧
        d.tag ≠ some "-" ∧ d.jsonName = f.name) ∧
      ∀ name a, (FieldIndex.build F r).lookup name = a ↔ Denotes F r name a :=
  ⟨nodup_build F r, fun _ _ => position?_eq_some, pairwise_build hF r,
    fun _ hf _ hg => eq_of_index_prefix hF hf hg, fun _ => descends_of_mem_build hF,
    fun _ _ => lookup_eq_iff hF⟩

/-! ## Records that embed each other -/

/-- Persons have a home, and a home has an owner. -/
def household : Family :=
  [("Person", [⟨"Name", some "name", true, none⟩, ⟨"Home", none, true, some "Home"⟩,
      ⟨"secret", none, false, none⟩, ⟨"Notes", some "-", true, none⟩]),
    ("Home", [⟨"Street", none, true, none⟩, ⟨"Name", none, true, none⟩,
      ⟨"Owner", some ",omitempty", true, some "Person"⟩])]

/-- Two names of a person differ in case only: another spelling is answered with the first. -/
theorem household_wellformed : (Members.names household).Nodup ∧
    (FieldIndex.build household "Person").position? "Name" = some 2 ∧
    (∃ d, Descends household "Person" [1, 1] d ∧ d.jsonName = "Name") ∧
    Denotes household "Person" "Name" (.field ⟨"Name", false, [1, 1]⟩) ∧
    Denotes household "Person" "NAME" (.field ⟨"name", true, [0]⟩) ∧
    Denotes household "Person" "secret" .unexported ∧
    Denotes household "Person" "Notes" .missing := by
  have hF : (Members.names household).Nodup := by decide
  have hfields : (FieldIndex.build household "Person").fields =
      [⟨"name", true, [0]⟩, ⟨"Street", false, [1, 0]⟩, ⟨"Name", false, [1, 1]⟩] := by
    decide +kernel
  obtain ⟨-, hposition, -, -, hdescends, hlookup⟩ := build_wellformed hF "Person"
  obtain ⟨d, hd, -, -, hname⟩ := hdescends ⟨"Name", false, [1, 1]⟩ (by simp [hfields])
  exact ⟨hF, (hposition _ _).2 ⟨_, by rw [hfields]; rfl, rfl⟩, ⟨d, hd, hname⟩,
    (hlookup _ _).1 (by decide +kernel), (hlookup _ _).1 (by decide +kernel),
    (hlookup _ _).1 (by decide +kernel), (hlookup _ _).1 (by decide +kernel)⟩

end DocPointer
