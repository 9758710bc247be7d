/-
  The JSON form of a proper value is well formed.

  A value is `Proper` if the JSON values that it holds are well formed.  Its JSON form is
  then well formed too, whatever the regions in it spell: the members of an object are
  put one after the other, and what a region spells was read.
-/
import DocPointer.Proofs.Json.Reader

namespace DocPointer

namespace Val

mutual

/-- The JSON values that the value holds are well formed. -/
def Proper : Val → Prop
  | ptr v => Proper v
  | box v => Proper v
  | held v => Proper v
  | slice _ items => ProperItems items
  | array _ items => ProperItems items
  | map _ _ _ entries => ProperEntries entries
  | json j => j.Wellformed
  | record _ fields => ProperItems fields
  | _ => True

/-- Every item is proper. -/
def ProperItems : List Val → Prop
  | [] => True
  | v :: vs => Proper v ∧ ProperItems vs

/-- The value of every entry is proper. -/
def ProperEntries : List (Key × Val) → Prop
  | [] => True
  | (_, v) :: es => Proper v ∧ ProperEntries es

end

end Val

namespace Schema

variable {Γ : Schema}

mutual

/-- **The JSON form of a proper value is well formed.** -/
theorem wellformed_of_encode : ∀ {x : Val} {j : Json}, x.Proper → Γ.encode x = some j →
    j.Wellformed
  | .bool _, _, _, h | .char _, _, _, h | .string _, _, _, h | .nil _, _, _, h
  | .vacant, _, _, h => by cases h; trivial
  | .int _ n, j, _, h => by
    obtain ⟨m, -, rfl⟩ := Option.map_eq_some_iff.1 h
    trivial
  | .float .f32 x, _, _, h => by
    cases h
    cases x.bind Binary.convert <;> trivial
  | .float .f64 x, _, _, h => by
    cases h
    cases x <;> trivial
  | .ptr v, _, hp, h | .box v, _, hp, h | .held v, _, hp, h => wellformed_of_encode (x := v) hp h
  | .slice _ items, _, hp, h | .array _ items, _, hp, h => by
    obtain ⟨js, hjs, rfl⟩ := Option.map_eq_some_iff.1 h
    exact Json.wellformed_arr.2 (wellformed_of_encodeItems hp hjs)
  | .map _ _ _ es, _, hp, h => by
    obtain ⟨ms, hms, rfl⟩ := Option.map_eq_some_iff.1 h
    exact Json.wellformed_ofList (wellformed_of_encodeEntries hp hms)
  | .json j, _, hp, h => by cases h; exact hp
  | .raw bytes, _, _, h => wellformed_of_regionValue? h
  | .record name fields, _, hp, h => by
    obtain ⟨ms, hms, rfl⟩ := Option.map_eq_some_iff.1 h
    exact Json.wellformed_ofList (wellformed_of_encodeFields hp hms)

theorem wellformed_of_encodeItems : ∀ {vs : List Val} {js : List Json}, Val.ProperItems vs →
    Γ.encodeItems vs = some js → ∀ j ∈ js, j.Wellformed
  | [], _, _, h => by cases h; simp
  | v :: vs, _, hp, h => by
    simp only [encodeItems, Option.bind_eq_bind, Option.bind_eq_some_iff, Option.pure_def,
      Option.some.injEq] at h
    obtain ⟨j, hj, js, hjs, rfl⟩ := h
    exact List.forall_mem_cons.2
      ⟨wellformed_of_encode hp.1 hj, wellformed_of_encodeItems hp.2 hjs⟩

theorem wellformed_of_encodeEntries : ∀ {es : List (Key × Val)} {ms : Members Json},
    Val.ProperEntries es → Γ.encodeEntries es = some ms → ∀ m ∈ ms, m.2.Wellformed
  | [], _, _, h => by cases h; simp
  | (k, v) :: es, _, hp, h => by
    simp only [encodeEntries, Option.bind_eq_bind, Option.bind_eq_some_iff, Option.pure_def,
      Option.some.injEq] at h
    obtain ⟨j, hj, ms, hms, rfl⟩ := h
    exact List.forall_mem_cons.2
      ⟨wellformed_of_encode hp.1 hj, wellformed_of_encodeEntries hp.2 hms⟩

theorem wellformed_of_encodeFields : ∀ {ks : List String} {vs : List Val} {ms : Members Json},
    Val.ProperItems vs → Γ.encodeFields ks vs = some ms → ∀ m ∈ ms, m.2.Wellformed
  | [], [], _, _, h | [], _ :: _, _, _, h | _ :: _, [], _, _, h => by cases h; simp
  | k :: ks, v :: vs, _, hp, h => by
    simp only [encodeFields, Option.bind_eq_bind, Option.bind_eq_some_iff, Option.pure_def,
      Option.some.injEq] at h
    obtain ⟨j, hj, ms, hms, rfl⟩ := h
    exact List.forall_mem_cons.2
      ⟨wellformed_of_encode hp.1 hj, wellformed_of_encodeFields hp.2 hms⟩

end

end Schema

end DocPointer
