/-
  Laws of entries: what is under a key after a change, and which changes cancel.
-/
import DocPointer.Document.Value

namespace DocPointer.Entries

variable {α : Type} {key : Key} {v w : α} {es : Entries α}

/-- Putting back the value that is there changes nothing. -/
theorem set_of_get? (h : get? key es = some v) : set key v es = es := by
  induction es with
  | nil => rfl
  | cons e es ih =>
    obtain ⟨k, u⟩ := e
    by_cases hk : k = key
    · simp only [get?, hk, if_true, Option.some.injEq] at h
      simp [set, hk, h]
    · simp only [get?, hk, if_false] at h
      simp [set, hk, ih h]

/-- The value that was set is found. -/
theorem get?_set_self (h : get? key es = some w) : get? key (set key v es) = some v := by
  induction es with
  | nil => cases h
  | cons e es ih =>
    obtain ⟨k, u⟩ := e
    by_cases hk : k = key
    · simp [set, get?, hk]
    · simp only [get?, hk, if_false] at h
      simp [set, get?, hk, ih h]

/-- A new entry is found. -/
theorem get?_insert_self (order : EntryOrder) (v : α) (h : get? key es = none) :
    get? key (insert order key v es) = some v := by
  induction es with
  | nil => simp [insert, get?]
  | cons e es ih =>
    obtain ⟨k, u⟩ := e
    have hk : k ≠ key := by
      rintro rfl
      simp [get?] at h
    simp only [get?, hk, if_false] at h
    cases order with
    | insertion => simp [insert, get?, hk, ih h]
    | byKey kind =>
      simp only [insert]
      split
      · simp [get?]
      · simp [get?, hk, ih h]

theorem remove_of_get? (h : get? key es = none) : remove key es = es := by
  induction es with
  | nil => rfl
  | cons e es ih =>
    obtain ⟨k, u⟩ := e
    by_cases hk : k = key
    · simp [get?, hk] at h
    · simp only [get?, hk, if_false] at h
      simp [remove, hk, ih h]

/-- A value that is about to be taken out may be changed before. -/
theorem remove_set (key : Key) (v : α) (es : Entries α) :
    remove key (set key v es) = remove key es := by
  induction es with
  | nil => rfl
  | cons e es ih =>
    obtain ⟨k, u⟩ := e
    by_cases hk : k = key
    · simp [set, remove, hk]
    · simp [set, remove, hk, ih]

/-- Taking out a new entry undoes putting it in. -/
theorem remove_insert (order : EntryOrder) (v : α) (h : get? key es = none) :
    remove key (insert order key v es) = es := by
  induction es with
  | nil => simp [insert, remove]
  | cons e es ih =>
    obtain ⟨k, u⟩ := e
    have hk : k ≠ key := by
      rintro rfl
      simp [get?] at h
    simp only [get?, hk, if_false] at h
    cases order with
    | insertion => simp [insert, remove, hk, ih h]
    | byKey kind =>
      simp only [insert]
      split
      · simp [remove]
      · simp [remove, hk, ih h]

/-- Of two values set under a key the last is left. -/
theorem set_set (key : Key) (v w : α) (es : Entries α) :
    set key w (set key v es) = set key w es := by
  induction es with
  | nil => rfl
  | cons e es ih =>
    obtain ⟨k, u⟩ := e
    by_cases hk : k = key
    · simp [set, hk]
    · simp [set, hk, ih]

/-! ## Other keys -/

section
variable {other : Key} (h : other ≠ key)
include h

theorem get?_set_of_ne (v : α) (es : Entries α) : get? other (set key v es) = get? other es := by
  induction es with
  | nil => rfl
  | cons e es ih =>
    obtain ⟨k, u⟩ := e
    by_cases hk : k = key
    · simp [set, get?, hk, h.symm]
    · simp [set, get?, hk, ih]

/-- Values under different keys are set in either order. -/
theorem set_comm (v w : α) (es : Entries α) :
    set other w (set key v es) = set key v (set other w es) := by
  induction es with
  | nil => rfl
  | cons e es ih =>
    obtain ⟨k, u⟩ := e
    by_cases hk : k = key
    · subst hk
      simp [set, h.symm]
    · by_cases ho : k = other
      · subst ho
        simp [set, hk]
      · simp [set, hk, ho, ih]

theorem get?_insert_of_ne (order : EntryOrder) (v : α) (es : Entries α) :
    get? other (insert order key v es) = get? other es := by
  induction es with
  | nil => simp [insert, get?, h.symm]
  | cons e es ih =>
    obtain ⟨k, u⟩ := e
    cases order with
    | insertion => simp [insert, get?, ih]
    | byKey kind =>
      simp only [insert]
      split
      · simp [get?, h.symm]
      · simp [get?, ih]

end

/-! ## The order of keys -/

/-- Setting a value leaves the keys as they are. -/
theorem keys_set (key : Key) (v : α) (es : Entries α) :
    (set key v es).map Prod.fst = es.map Prod.fst := by
  induction es with
  | nil => rfl
  | cons e es ih =>
    obtain ⟨k, u⟩ := e
    by_cases hk : k = key
    · simp [set, hk]
    · simp [set, hk, ih]

/-- A new entry comes between the others. -/
theorem sublist_insert (order : EntryOrder) (key : Key) (v : α) (es : Entries α) :
    es.Sublist (insert order key v es) := by
  induction es with
  | nil => exact List.nil_sublist _
  | cons e es ih =>
    obtain ⟨k, u⟩ := e
    cases order with
    | insertion => exact ih.cons_cons _
    | byKey kind =>
      simp only [insert]
      split
      · exact List.sublist_cons_self _ _
      · exact ih.cons_cons _

/-- Where no key is there twice, taking one out leaves the entries under all others. -/
theorem remove_eq_filter (key : Key) (hd : (es.map Prod.fst).Nodup) :
    remove key es = es.filter (·.1 ≠ key) := by
  induction es with
  | nil => rfl
  | cons e es ih =>
    obtain ⟨k, u⟩ := e
    rw [List.map_cons, List.nodup_cons] at hd
    by_cases hk : k = key
    · subst hk
      have hall : es.filter (·.1 ≠ k) = es := by
        rw [List.filter_eq_self]
        intro e he
        have hne : e.1 ≠ k := fun h => hd.1 (List.mem_map.2 ⟨e, he, h⟩)
        simpa using hne
      rw [remove, if_pos rfl, List.filter_cons_of_neg (by simp), hall]
    · rw [remove, if_neg hk, List.filter_cons_of_pos (by simpa using hk), ih hd.2]

theorem get?_filter_self (key : Key) (es : Entries α) :
    get? key (es.filter (·.1 ≠ key)) = none := by
  induction es with
  | nil => rfl
  | cons e es ih =>
    obtain ⟨k, u⟩ := e
    by_cases hk : k = key
    · rw [List.filter_cons_of_neg (by simpa using hk), ih]
    · rw [List.filter_cons_of_pos (by simpa using hk), get?, if_neg hk, ih]

end DocPointer.Entries
