/-
  Where the fields of an index lie.

  What an index lists was found by the search (`found_of_mem_build`), so a field has a
  position at least (`index_ne_nil`).  Read from the front, its positions are a `Route`: each
  but the last is that of an embedding, and the last is that of a declared field
  (`route_of_mem_build`).  So of two routes none goes on where the other ends
  (`Route.apart`).
-/
import DocPointer.Proofs.Fields.Dominance

namespace DocPointer

/-- The positions lead from the record `r` down embeddings to a visible field. -/
inductive Route (F : Family) : String → List Nat → Prop where
  | last {r : String} {i : Nat} {name : String} {tagged : Bool} :
      Declares F r i name tagged → Route F r [i]
  | cons {r s : String} {k : Nat} {path : List Nat} :
      Embeds F r k s → Route F s path → Route F r (k :: path)

variable {F : Family} {r : String} {f : Field}

theorem FieldIndex.mem_of_lookup {ix : FieldIndex} {name : String} (h : ix.lookup name = .field f) :
    f ∈ ix.fields := by
  simp only [lookup] at h
  repeat' split at h
  all_goals cases h
  all_goals exact List.mem_of_find?_eq_some ‹_›

theorem found_of_mem_build (h : f ∈ (FieldIndex.build F r).fields) : f ∈ foundFields F r := by
  rw [FieldIndex.build, FieldIndex.ofFlattening, (sortByIndex_perm _).mem_iff,
    List.mem_filterMap] at h
  obtain ⟨name, -, hdom⟩ := h
  exact (List.mem_filter.1 (mem_of_dominant hdom)).1

theorem index_ne_nil_of_level {copies : String → Nat} (hc : ∀ s, copies s ≠ 0) {pool : Family}
    {level : List Promotion} (h : f ∈ (Expansion.ofLevel copies pool level).found.fields) :
    f.index ≠ [] := by
  rw [(Expansion.ofLevel_spec copies pool level).1, List.mem_flatMap] at h
  obtain ⟨e, -, hf⟩ := h
  obtain ⟨i, d, -, -, hi⟩ := (Flattening.mem_visibleFields (hc _)).1 hf
  rw [hi]
  exact List.append_ne_nil_of_right_ne_nil _ (List.cons_ne_nil _ _)

/-- A field that an index lists has a position. -/
theorem index_ne_nil (h : f ∈ (FieldIndex.build F r).fields) : f.index ≠ [] := by
  replace h := found_of_mem_build h
  rw [foundFields] at h
  -- level by level, whatever the levels list
  generalize [(r, [])] = level at h
  fun_induction Flattening.ofLevel F level with
  | case1 pool level out => exact index_ne_nil_of_level (copiesOn_ne_zero level) h
  | case2 pool level out hb ih =>
    rcases List.mem_append.1 h with h | h
    · exact index_ne_nil_of_level (copiesOn_ne_zero level) h
    · exact ih h

/-- A chain in front of a route makes a longer one. -/
theorem Chain.route {path rest : List Nat} {s : String} (h : Chain F r path s)
    (hs : Route F s rest) : Route F r (path ++ rest) := by
  induction h generalizing rest with
  | nil => exact hs
  | snoc hc he ih =>
    rw [List.append_assoc]
    exact ih (.cons he hs)

/-- **The positions of a field that an index lists lead to it.** -/
theorem route_of_mem_build (hF : (Members.names F).Nodup) (h : f ∈ (FieldIndex.build F r).fields) :
    Route F r f.index := by
  obtain ⟨path, s, i, hc, hd, hi⟩ := ((mem_build_iff hF r f).1 h).1.1
  rw [hi]
  exact hc.route (.last hd)

/-! ## Different routes -/

/-- Neither path goes on where the other ends. -/
def Apart (a b : List Nat) : Prop := ¬a <+: b ∧ ¬b <+: a

theorem Apart.symm {a b : List Nat} (h : Apart a b) : Apart b a := ⟨h.2, h.1⟩

theorem not_apart_nil (b : List Nat) : ¬Apart [] b := fun h => h.1 List.nil_prefix

theorem Apart.of_cons {i : Nat} {a b : List Nat} (h : Apart (i :: a) (i :: b)) : Apart a b := by
  constructor
  · intro hab
    exact h.1 (List.cons_prefix_cons.2 ⟨rfl, hab⟩)
  · intro hba
    exact h.2 (List.cons_prefix_cons.2 ⟨rfl, hba⟩)

/-- An embedding is no visible field. -/
theorem Embeds.not_declares {p s name : String} {k : Nat} {tagged : Bool} (h : Embeds F p k s) :
    ¬Declares F p k name tagged := by
  obtain ⟨fs, d, hp, hd, hr⟩ := h
  rintro ⟨fs', d', hp', hd', hr'⟩
  obtain rfl : fs = fs' := Option.some.inj (hp.symm.trans hp')
  obtain rfl : d = d' := Option.some.inj (hd.symm.trans hd')
  cases hr.symm.trans hr'

theorem Route.eq_of_prefix {a b : List Nat} (ha : Route F r a) (hb : Route F r b)
    (h : a <+: b) : a = b := by
  induction ha generalizing b with
  | last hd =>
    cases hb with
    | last => exact h.eq_of_length rfl
    | cons he =>
      obtain ⟨rfl, -⟩ := List.cons_prefix_cons.1 h
      exact absurd hd he.not_declares
  | cons he hpath ih =>
    cases hb with
    | last hd =>
      obtain ⟨rfl, -⟩ := List.cons_prefix_cons.1 h
      exact absurd hd he.not_declares
    | cons he' hb =>
      obtain ⟨rfl, hpre⟩ := List.cons_prefix_cons.1 h
      cases he.unique he'
      rw [ih hb hpre]

/-- **Different routes are apart.** -/
theorem Route.apart {a b : List Nat} (ha : Route F r a) (hb : Route F r b) (h : a ≠ b) :
    Apart a b :=
  ⟨fun hab => h (ha.eq_of_prefix hb hab), fun hba => h (hb.eq_of_prefix ha hba).symm⟩

end DocPointer
