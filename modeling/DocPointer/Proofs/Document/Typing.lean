/-
  What is decoded as a type is of that type, and so is what a slot of the type adopts.
-/
import DocPointer.Walk.Store

namespace DocPointer

/-- What is found behind the pointers of a type, if what is found without pointers is
    of the type that was asked for. -/
theorem Schema.typeOf_throughPointers {f : Ty → Option Val}
    (hf : ∀ {t : Ty} {v : Val}, f t = some v → v.typeOf = t) {t : Ty} {v : Val}
    (h : Schema.throughPointers f t = some v) : v.typeOf = t := by
  induction t generalizing v with
  | opt t ih | box t ih =>
    obtain ⟨u, hu, rfl⟩ := Option.map_eq_some_iff.1 h
    rw [Val.typeOf, ih hu]
  | _ => exact hf h

namespace Schema

variable {Γ : Schema}

theorem typeOf_adopt? {j : Json} {t : Ty} {v : Val} (h : adopt? j t = some v) : v.typeOf = t := by
  cases t with
  | json | raw => cases h; rfl
  | holder =>
    cases h
    split <;> rfl
  | _ => cases h

theorem typeOf_decodeNull {t : Ty} {v : Val} (h : decodeNull t = some v) : v.typeOf = t := by
  induction t generalizing v with
  | opt t => cases h; rfl
  | box t ih =>
    obtain ⟨u, hu, rfl⟩ := Option.map_eq_some_iff.1 h
    rw [Val.typeOf, ih hu]
  | _ => exact typeOf_adopt? h

theorem typeOf_decodeNumber {n : Number} {t : Ty} {v : Val} (h : decodeNumber n t = some v) :
    v.typeOf = t := by
  cases t with
  | int k =>
    cases n with
    | int i hi =>
      simp only [decodeNumber] at h
      split at h <;> cases h
      rfl
    | float x => cases h
  | float k => cases h; rfl
  | _ => exact @typeOf_adopt? (.num n) _ _ h

theorem typeOf_decodeString {s : String} {t : Ty} {v : Val} (h : decodeString s t = some v) :
    v.typeOf = t := by
  cases t with
  | string => cases h; rfl
  | char =>
    simp only [decodeString] at h
    split at h <;> cases h
    rfl
  | _ => exact @typeOf_adopt? (.str s) _ _ h

theorem length_decodeItems {js : List Json} {t : Ty} {vs : List Val}
    (h : Γ.decodeItems js t = some vs) : vs.length = js.length := by
  induction js generalizing vs with
  | nil => cases h; rfl
  | cons j js ih =>
    simp only [decodeItems, Option.bind_eq_bind, Option.bind_eq_some_iff, Option.pure_def,
      Option.some.injEq] at h
    obtain ⟨v, -, us, hus, rfl⟩ := h
    simp [ih hus]

/-- **What is decoded as a type is of that type.** -/
theorem typeOf_decode {j : Json} {t : Ty} {v : Val} (h : Γ.decode j t = some v) : v.typeOf = t := by
  cases j with
  | null =>
    rw [decode] at h
    exact typeOf_decodeNull h
  | bool b =>
    rw [decode] at h
    refine typeOf_throughPointers (fun {t v} h => ?_) h
    split at h
    · cases h; rfl
    · exact typeOf_adopt? h
  | num n =>
    rw [decode] at h
    exact typeOf_throughPointers typeOf_decodeNumber h
  | str s =>
    rw [decode] at h
    exact typeOf_throughPointers typeOf_decodeString h
  | arr js =>
    rw [decode] at h
    refine typeOf_throughPointers (fun {t v} h => ?_) h
    split at h
    · obtain ⟨vs, -, rfl⟩ := Option.map_eq_some_iff.1 h
      rfl
    · split at h
      · next hn =>
        obtain ⟨vs, hvs, rfl⟩ := Option.map_eq_some_iff.1 h
        rw [Val.typeOf, length_decodeItems hvs, hn]
      · cases h
    · dsimp only at h
      split at h
      · obtain ⟨vs, -, rfl⟩ := Option.map_eq_some_iff.1 h
        rfl
      · cases h
    · exact typeOf_adopt? h
  | obj ms =>
    rw [decode] at h
    refine typeOf_throughPointers (fun {t v} h => ?_) h
    split at h
    · obtain ⟨es, -, rfl⟩ := Option.map_eq_some_iff.1 h
      rfl
    · obtain ⟨found, -, rfl⟩ := Option.map_eq_some_iff.1 h
      rfl
    · exact typeOf_adopt? h

/-- The types that take every JSON value take it as it is. -/
theorem decode_of_adopt? {j : Json} {t : Ty} {v : Val} (h : adopt? j t = some v) :
    Γ.decode j t = some v := by
  cases t with
  | json | holder | raw => cases j <;> simpa [decode, throughPointers, decodeNull, decodeNumber, decodeString] using h
  | _ => cases h

/-! ## Slots -/

theorem typeOf_adopts? {slot : Ty} {x v : Val} (h : Γ.adopts? slot x = some v) :
    v.typeOf = slot := by
  simp only [adopts?] at h
  split at h
  · cases h; assumption
  · split at h
    · obtain ⟨j, -, rfl⟩ := Option.map_eq_some_iff.1 h
      rfl
    · cases h; rfl
    · cases h

theorem typeOf_crosses {slot source : Ty} {j : Json} {v : Val}
    (h : Γ.crosses slot source j = .ok v) : v.typeOf = slot := by
  simp only [crosses] at h
  split at h
  · next hd => cases h; exact typeOf_decode hd
  · cases h

theorem typeOf_offer {slot : Ty} {x v : Val} (h : Γ.offer slot x = some (.ok v)) :
    v.typeOf = slot := by
  simp only [offer] at h
  split at h
  · next ha => cases h; exact typeOf_adopts? ha
  · split at h
    · split at h
      · exact typeOf_crosses (Option.some.inj h)
      · cases h
    · exact typeOf_crosses (Option.some.inj h)
    · cases h

end Schema

end DocPointer
