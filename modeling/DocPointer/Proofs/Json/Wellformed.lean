/-
  Well-formed JSON: the operations on items and members keep names distinct.
-/
import DocPointer.Json.Basic

namespace DocPointer

namespace Members

variable {α : Type} {name : String} {v w : α} {ms : Members α}

theorem mem_of_get? (h : get? name ms = some v) : (name, v) ∈ ms := by
  induction ms with
  | nil => simp [get?] at h
  | cons m ms ih =>
    obtain ⟨k, u⟩ := m
    by_cases hk : k = name
    · simp only [get?, hk, if_true, Option.some.injEq] at h
      simp [hk, h]
    · simp only [get?, hk, if_false] at h
      exact List.mem_cons_of_mem _ (ih h)

theorem get?_eq_none : get? name ms = none ↔ name ∉ names ms := by
  induction ms with
  | nil => simp [get?, names]
  | cons m ms ih =>
    obtain ⟨k, u⟩ := m
    by_cases hk : k = name
    · simp [get?, names, hk]
    · simp only [names] at ih
      simp [get?, names, hk, ih, Ne.symm hk]

theorem mem_put {m : String × α} (h : m ∈ put name v ms) : m = (name, v) ∨ m ∈ ms := by
  induction ms with
  | nil => simpa [put] using h
  | cons m' ms ih =>
    obtain ⟨k, u⟩ := m'
    by_cases hk : k = name
    · simp only [put, hk, if_true, List.mem_cons] at h ⊢
      exact h.imp_right .inr
    · simp only [put, hk, if_false, List.mem_cons] at h ⊢
      rcases h with h | h
      · exact .inr (.inl h)
      · exact (ih h).imp_right .inr

/-- A name that is there keeps its place, and a new one comes last. -/
theorem names_put (name : String) (v : α) (ms : Members α) :
    names (put name v ms) = if name ∈ names ms then names ms else names ms ++ [name] := by
  induction ms with
  | nil => simp [put, names]
  | cons m ms ih =>
    obtain ⟨k, u⟩ := m
    by_cases hk : k = name
    · simp [put, names, hk]
    · simp only [names] at ih
      simp only [put, names, hk, if_false, List.map_cons, ih, List.mem_cons, Ne.symm hk, false_or]
      by_cases hn : name ∈ ms.map (·.1) <;> simp [hn]

theorem nodup_put (h : (names ms).Nodup) : (names (put name v ms)).Nodup := by
  rw [names_put]
  split
  · exact h
  · next hn =>
    rw [List.nodup_append]
    refine ⟨h, by simp, ?_⟩
    intro a ha b hb
    rw [List.mem_singleton.1 hb]
    rintro rfl
    exact hn ha

theorem sublist_remove (name : String) (ms : Members α) : (remove name ms).Sublist ms := by
  induction ms with
  | nil => exact .slnil
  | cons m ms ih =>
    obtain ⟨k, u⟩ := m
    by_cases hk : k = name
    · simp only [remove, hk, if_true]
      exact List.sublist_cons_self _ _
    · simp only [remove, hk, if_false]
      exact ih.cons_cons _

end Members

namespace Json

theorem wellformedItems_iff {xs : List Json} : WellformedItems xs ↔ ∀ x ∈ xs, x.Wellformed := by
  induction xs with
  | nil => simp [WellformedItems]
  | cons x xs ih => simp [WellformedItems, ih]

theorem wellformedMembers_iff {ms : Members Json} :
    WellformedMembers ms ↔ ∀ m ∈ ms, m.2.Wellformed := by
  induction ms with
  | nil => simp [WellformedMembers]
  | cons m ms ih => simp [WellformedMembers, ih]

theorem wellformed_arr {xs : List Json} : (arr xs).Wellformed ↔ ∀ x ∈ xs, x.Wellformed := by
  rw [Wellformed, wellformedItems_iff]

theorem wellformed_obj {ms : Members Json} :
    (obj ms).Wellformed ↔ (Members.names ms).Nodup ∧ ∀ m ∈ ms, m.2.Wellformed := by
  rw [Wellformed, wellformedMembers_iff]

variable {name : String} {v : Json} {ms : Members Json} {xs : List Json}

theorem wellformed_put (h : (obj ms).Wellformed) (hv : v.Wellformed) :
    (obj (Members.put name v ms)).Wellformed := by
  rw [wellformed_obj] at h ⊢
  refine ⟨Members.nodup_put h.1, ?_⟩
  intro m hm
  rcases Members.mem_put hm with rfl | hm
  · exact hv
  · exact h.2 m hm

theorem wellformed_ofList (h : ∀ m ∈ ms, m.2.Wellformed) : (obj (Members.ofList ms)).Wellformed := by
  have hfold (acc : Members Json) (hacc : (obj acc).Wellformed) :
      (obj (ms.foldl (fun acc m => Members.put m.1 m.2 acc) acc)).Wellformed := by
    induction ms generalizing acc with
    | nil => exact hacc
    | cons m ms ih =>
      obtain ⟨hm, hms⟩ := List.forall_mem_cons.1 h
      exact ih hms _ (wellformed_put hacc hm)
  refine hfold [] (wellformed_obj.2 ⟨List.nodup_nil, ?_⟩)
  intro m hm
  cases hm

theorem wellformed_remove (h : (obj ms).Wellformed) : (obj (Members.remove name ms)).Wellformed := by
  rw [wellformed_obj] at h ⊢
  have hs := Members.sublist_remove name ms
  exact ⟨h.1.sublist (hs.map _), fun m hm => h.2 m (hs.subset hm)⟩

theorem wellformed_member (h : (obj ms).Wellformed) (hv : Members.get? name ms = some v) :
    v.Wellformed :=
  (wellformed_obj.1 h).2 _ (Members.mem_of_get? hv)

theorem wellformed_item {i : Nat} (h : (arr xs).Wellformed) (hv : xs[i]? = some v) :
    v.Wellformed :=
  wellformed_arr.1 h v (List.mem_of_getElem? hv)

theorem wellformed_set {i : Nat} (h : (arr xs).Wellformed) (hv : v.Wellformed) :
    (arr (xs.set i v)).Wellformed := by
  rw [wellformed_arr] at h ⊢
  intro x hx
  rcases List.mem_or_eq_of_mem_set hx with hx | rfl
  · exact h x hx
  · exact hv

theorem wellformed_eraseIdx {i : Nat} (h : (arr xs).Wellformed) :
    (arr (xs.eraseIdx i)).Wellformed := by
  rw [wellformed_arr] at h ⊢
  intro x hx
  exact h x ((List.eraseIdx_sublist _ _).subset hx)

end Json

end DocPointer
