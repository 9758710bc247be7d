/-
  The levels of the flattening, and what they find.

  `IsLevel n` is the invariant of the loop: the pool holds the records that no chain of
  fewer than `n` embeddings leads to, and the level lists, in the order of their
  positions, the embeddings in the records of the level before.  One level keeps it
  (`IsLevel.below`).  So a level expands each record at the end of its best chain
  (`mem_expanded_iff`), and what all levels find is `mem_fields_iff`: each visible field
  of each record, once at the end of the best chain, or twice if another embedding of
  the same depth leads to the record (`Doubled`).
-/
import DocPointer.Proofs.Fields.Chain
import DocPointer.Proofs.Json.Wellformed

namespace DocPointer

/-! ## Families -/

namespace Members

variable {α : Type} {name name' : String} {ms : Members α}

theorem get?_remove_self (h : (names ms).Nodup) : get? name (remove name ms) = none := by
  induction ms with
  | nil => rfl
  | cons m ms ih =>
    obtain ⟨k, v⟩ := m
    obtain ⟨hk, hms⟩ := List.nodup_cons.1 h
    by_cases hkn : k = name
    · subst hkn
      simpa [remove] using get?_eq_none.2 hk
    · simp [remove, get?, hkn, ih hms]

theorem get?_remove_of_ne (h : name' ≠ name) (ms : Members α) :
    get? name' (remove name ms) = get? name' ms := by
  induction ms with
  | nil => rfl
  | cons m ms ih =>
    obtain ⟨k, v⟩ := m
    by_cases hkn : k = name
    · subst hkn
      simp [remove, get?, Ne.symm h]
    · simp [remove, get?, hkn, ih]

theorem nodup_remove (h : (names ms).Nodup) (name : String) : (names (remove name ms)).Nodup :=
  h.sublist ((sublist_remove name ms).map _)

end Members

/-! ## Expanded records -/

namespace Expansion

/-- The records of a level that are in the pool, with their declared fields: of each the
    first occurrence. -/
def expanded : Family → List Promotion → List (Promotion × List FieldDecl)
  | _, [] => []
  | pool, (s, path) :: level =>
    match Members.get? s pool with
    | none => expanded pool level
    | some fs => ((s, path), fs) :: expanded (Members.remove s pool) level

/-- One level in terms of the records it expands. -/
theorem ofLevel_spec (copies : String → Nat) (pool : Family) (level : List Promotion) :
    (ofLevel copies pool level).found.fields = (expanded pool level).flatMap
        (fun e => Flattening.visibleFields (copies e.1.1) e.1.2 e.2) ∧
      (ofLevel copies pool level).below = (expanded pool level).flatMap
        (fun e => Flattening.promotions e.1.2 e.2) := by
  induction level generalizing pool with
  | nil => exact ⟨rfl, rfl⟩
  | cons e level ih =>
    obtain ⟨s, path⟩ := e
    cases hs : Members.get? s pool with
    | none =>
      simp only [ofLevel, expanded, hs]
      exact ih pool
    | some fs =>
      obtain ⟨hfound, hbelow⟩ := ih (Members.remove s pool)
      simp only [ofLevel, expanded, hs, Flattening.append, hfound, hbelow, List.flatMap_cons,
        and_self]

/-- The pool loses the records of the level. -/
theorem get?_pool (copies : String → Nat) {pool : Family} (hp : (Members.names pool).Nodup)
    (level : List Promotion) (t : String) :
    Members.get? t (ofLevel copies pool level).pool =
      if t ∈ level.map (·.1) then none else Members.get? t pool := by
  induction level generalizing pool with
  | nil => simp [ofLevel]
  | cons e level ih =>
    obtain ⟨s, path⟩ := e
    by_cases hts : t = s
    · subst hts
      cases hs : Members.get? t pool with
      | none => simp [ofLevel, hs, ih hp]
      | some fs =>
        simp [ofLevel, hs, ih (Members.nodup_remove hp t), Members.get?_remove_self hp]
    · have hmem : t ∈ ((s, path) :: level).map (·.1) ↔ t ∈ level.map (·.1) := by simp [hts]
      cases hs : Members.get? s pool with
      | none => simp only [ofLevel, hs, ih hp, hmem]
      | some fs =>
        simp only [ofLevel, hs, ih (Members.nodup_remove hp s), Members.get?_remove_of_ne hts, hmem]

theorem nodup_pool (copies : String → Nat) {pool : Family} (hp : (Members.names pool).Nodup)
    (level : List Promotion) : (Members.names (ofLevel copies pool level).pool).Nodup := by
  induction level generalizing pool with
  | nil => exact hp
  | cons e level ih =>
    unfold ofLevel
    split
    · exact ih hp
    · exact ih (Members.nodup_remove hp e.1)

theorem expanded_sublist (pool : Family) (level : List Promotion) :
    ((expanded pool level).map (·.1)).Sublist level := by
  induction level generalizing pool with
  | nil => exact .slnil
  | cons e level ih =>
    unfold expanded
    split
    · exact (ih pool).cons _
    · exact (ih _).cons_cons _

theorem sorted_expanded {pool : Family} {level : List Promotion}
    (hl : level.Pairwise fun a b => a.2 < b.2) :
    (expanded pool level).Pairwise fun a b => a.1.2 < b.1.2 := by
  have h : ((expanded pool level).map (·.1)).Pairwise fun a b => a.2 < b.2 :=
    hl.sublist (expanded_sublist pool level)
  rwa [List.pairwise_map] at h

/-- A level in order expands each record of the pool at the first of its positions. -/
theorem mem_expanded {pool : Family} (hp : (Members.names pool).Nodup) {level : List Promotion}
    (hl : level.Pairwise fun a b => a.2 < b.2) {s : String} {path : List Nat}
    {fs : List FieldDecl} :
    ((s, path), fs) ∈ expanded pool level ↔
      Members.get? s pool = some fs ∧ (s, path) ∈ level ∧ ∀ path', (s, path') ∈ level → ¬path' < path := by
  induction level generalizing pool with
  | nil => simp [expanded]
  | cons e level ih =>
    obtain ⟨t, q⟩ := e
    obtain ⟨hq, hlt⟩ := List.pairwise_cons.1 hl
    by_cases hst : s = t
    · subst hst
      cases hs : Members.get? s pool with
      | none => simp [expanded, hs, ih hp hlt]
      | some gs =>
        have hrest : ((s, path), fs) ∉ expanded (Members.remove s pool) level := fun h => by
          have hget := ((ih (Members.nodup_remove hp s) hlt).1 h).1
          rw [Members.get?_remove_self hp] at hget
          cases hget
        simp only [expanded, hs, List.mem_cons, hrest, or_false, Prod.mk.injEq, true_and,
          Option.some.injEq]
        constructor
        · rintro ⟨rfl, rfl⟩
          refine ⟨rfl, .inl rfl, ?_⟩
          rintro path' (rfl | h)
          · exact List.lt_irrefl _
          · exact List.lt_asymm (hq _ h)
        · rintro ⟨rfl, rfl | h, hmin⟩
          · exact ⟨rfl, rfl⟩
          · exact absurd (hq _ h) (hmin q (.inl rfl))
    · have hne (path' : List Nat) : (s, path') ∈ (t, q) :: level ↔ (s, path') ∈ level := by
        simp [hst]
      cases ht : Members.get? t pool with
      | none => simp only [expanded, ht, hne, ih hp hlt]
      | some gs =>
        simp only [expanded, ht, hne, List.mem_cons, Prod.mk.injEq, hst, false_and, false_or,
          ih (Members.nodup_remove hp t) hlt, Members.get?_remove_of_ne hst]

end Expansion

/-! ## Parts of a record -/

namespace Flattening

variable {fs : List FieldDecl} {path : List Nat}

theorem mem_promotions {t : String} {q : List Nat} :
    (t, q) ∈ promotions path fs ↔
      ∃ k d, fs[k]? = some d ∧ d.role = .promotes t ∧ q = path ++ [k] := by
  simp only [promotions, List.mem_filterMap, Prod.exists, List.mem_zipIdx_iff_getElem?]
  constructor
  · rintro ⟨d, k, hd, h⟩
    cases hr : d.role with
    | promotes s =>
      simp only [hr, Option.some.injEq, Prod.mk.injEq] at h
      exact ⟨k, d, hd, h.1 ▸ hr, h.2.symm⟩
    | _ => simp [hr] at h
  · rintro ⟨k, d, hd, hr, rfl⟩
    exact ⟨d, k, hd, by simp [hr]⟩

theorem mem_visibleFields {copies : Nat} (hc : copies ≠ 0) {f : Field} :
    f ∈ visibleFields copies path fs ↔
      ∃ i d, fs[i]? = some d ∧ d.role = .visible f.name f.tagged ∧ f.index = path ++ [i] := by
  simp only [visibleFields, List.mem_flatMap, Prod.exists, List.mem_zipIdx_iff_getElem?]
  constructor
  · rintro ⟨d, i, hd, h⟩
    cases hr : d.role with
    | visible name tagged =>
      simp only [hr, List.mem_replicate] at h
      exact ⟨i, d, hd, by rw [hr, h.2], by rw [h.2]⟩
    | _ => simp [hr] at h
  · rintro ⟨i, d, hd, hr, hi⟩
    refine ⟨d, i, hd, ?_⟩
    simp only [hr, List.mem_replicate]
    exact ⟨hc, by rw [← hi]⟩

theorem pairwise_zipIdx (fs : List FieldDecl) : fs.zipIdx.Pairwise fun a b => a.2 < b.2 := by
  have h : (fs.zipIdx.map Prod.snd).Pairwise (· < ·) := by
    rw [List.zipIdx_map_snd]
    exact List.pairwise_lt_range'
  exact List.pairwise_map.1 h

/-- The promoted records come in the order of their positions. -/
theorem pairwise_promotions (path : List Nat) (fs : List FieldDecl) :
    (promotions path fs).Pairwise fun a b => a.2 < b.2 := by
  rw [promotions, List.pairwise_filterMap]
  refine (pairwise_zipIdx fs).imp ?_
  rintro ⟨d, i⟩ ⟨d', i'⟩ hi e he e' he'
  simp only at he he' hi
  split at he <;> cases he
  split at he' <;> cases he'
  exact (append_lt_append rfl).2 (.inr ⟨rfl, by simpa [List.cons_lt_cons_iff] using hi⟩)

/-- The fields of a record that is expanded once are distinct. -/
theorem pairwise_visibleFields (path : List Nat) (fs : List FieldDecl) :
    (visibleFields 1 path fs).Pairwise fun f g => f ≠ g := by
  rw [visibleFields, List.pairwise_flatMap]
  refine ⟨?_, (pairwise_zipIdx fs).imp ?_⟩
  · intro e _
    dsimp only
    split <;> simp
  · rintro ⟨d, i⟩ ⟨d', i'⟩ hi f hf g hg rfl
    simp only at hf hg hi
    split at hf
    · split at hg
      · simp only [List.mem_replicate] at hf hg
        have h := hf.2.symm.trans hg.2
        simp only [Field.mk.injEq, List.append_cancel_left_eq, List.cons.injEq] at h
        omega
      · cases hg
    · cases hf

/-- Those of a record that is expanded twice all come twice. -/
theorem sublist_visibleFields {f : Field} (hf : f ∈ visibleFields 2 path fs) :
    [f, f].Sublist (visibleFields 2 path fs) := by
  obtain ⟨⟨d, i⟩, he, hf⟩ := List.mem_flatMap.1 hf
  refine .trans ?_ (List.sublist_flatten_of_mem (List.mem_map_of_mem he))
  simp only at hf ⊢
  split at hf
  · simp only [List.mem_replicate] at hf
    rw [hf.2]
    exact .refl _
  · cases hf

end Flattening

/-! ## The invariant -/

section
variable (F : Family) (r : String)

/-- An embedding that a level lists: the record itself, or one in a record at the end of
    its best chain. -/
def Entry (path : List Nat) (s : String) : Prop :=
  (path = [] ∧ s = r) ∨
    ∃ q p k, Best F r q p ∧ Embeds F p k s ∧ path = q ++ [k]

/-- Another embedding of the same depth leads to the record of the field. -/
def Doubled (f : Field) : Prop :=
  ∃ s path path' i, Best F r path s ∧ Entry F r path' s ∧ path'.length = path.length ∧
    path' ≠ path ∧ f.index = path ++ [i]

/-- The loop is before level `n`. -/
structure IsLevel (n : Nat) (pool : Family) (level : List Promotion) : Prop where
  nodup : (Members.names pool).Nodup
  mem_pool (s : String) (fs : List FieldDecl) : Members.get? s pool = some fs ↔
    Members.get? s F = some fs ∧ ∀ path, Chain F r path s → n ≤ path.length
  mem_level (s : String) (path : List Nat) :
    (s, path) ∈ level ↔ Entry F r path s ∧ path.length = n
  sorted : level.Pairwise fun a b => a.2 < b.2
  best (s : String) (path : List Nat) : Chain F r path s → path.length < n → ∃ q, Best F r q s

end

variable {F : Family} {r : String} {n : Nat} {pool : Family} {level : List Promotion}

theorem Entry.chain {path : List Nat} {s : String} (h : Entry F r path s) : Chain F r path s := by
  rcases h with ⟨rfl, rfl⟩ | ⟨q, p, k, hq, he, rfl⟩
  · exact .nil
  · exact .snoc hq.1 he

/-- A best chain has a best chain before its last embedding. -/
theorem Best.entry {path : List Nat} {s : String} (h : Best F r path s) : Entry F r path s := by
  rcases h.1.cases_last with ⟨rfl, rfl⟩ | ⟨q, p, k, hq, he, rfl⟩
  · exact .inl ⟨rfl, rfl⟩
  · refine .inr ⟨q, p, k, ⟨hq, ?_⟩, he, rfl⟩
    intro q' hq'
    obtain ⟨hle, hlex⟩ := h.2 _ (hq'.snoc he)
    simp only [List.length_append, List.length_singleton] at hle hlex
    refine ⟨by omega, fun hlen hlt => hlex (by omega) ?_⟩
    exact (append_lt_append hlen).2 (.inl hlt)

namespace IsLevel

/-- The loop starts before level zero. -/
theorem zero (hF : (Members.names F).Nodup) : IsLevel F r 0 F [(r, [])] where
  nodup := hF
  mem_pool s fs := by simp
  mem_level s path := by
    simp only [List.mem_singleton, Prod.mk.injEq, List.length_eq_zero_iff, Entry]
    constructor
    · rintro ⟨rfl, rfl⟩
      exact ⟨.inl ⟨rfl, rfl⟩, rfl⟩
    · rintro ⟨⟨-, rfl⟩ | ⟨q, p, k, -, -, hq⟩, rfl⟩
      · exact ⟨rfl, rfl⟩
      · simp at hq
  sorted := List.pairwise_singleton _ _
  best s path _ h := absurd h (Nat.not_lt_zero _)

/-- The level lists an embedding no later than any chain to a new record. -/
theorem exists_entry (h : IsLevel F r n pool level) {s : String} {path : List Nat}
    (hs : ∀ path, Chain F r path s → n ≤ path.length) (hc : Chain F r path s)
    (hl : path.length = n) : ∃ path', (s, path') ∈ level ∧ ¬path < path' := by
  rcases hc.cases_last with ⟨rfl, rfl⟩ | ⟨q, p, k, hq, he, rfl⟩
  · exact ⟨[], (h.mem_level _ _).2 ⟨.inl ⟨rfl, rfl⟩, hl⟩, List.lt_irrefl _⟩
  · simp only [List.length_append, List.length_singleton] at hl
    obtain ⟨b, hb⟩ := h.best p q hq (by omega)
    obtain ⟨hle, hlex⟩ := hb.2 q hq
    have hn := hs _ (hb.1.snoc he)
    simp only [List.length_append, List.length_singleton] at hn
    have hlen : q.length = b.length := by omega
    refine ⟨b ++ [k], (h.mem_level _ _).2 ⟨.inr ⟨b, p, k, hb, he, rfl⟩, by simp; omega⟩, ?_⟩
    intro hlt
    rcases (append_lt_append hlen).1 hlt with hlt | ⟨-, hlt⟩
    · exact hlex hlen hlt
    · exact List.lt_irrefl _ hlt

/-- A new record is listed first at the end of its best chain. -/
theorem best_iff (h : IsLevel F r n pool level) {s : String} {path : List Nat}
    (hs : ∀ path, Chain F r path s → n ≤ path.length) :
    Best F r path s ∧ path.length = n ↔
      (s, path) ∈ level ∧ ∀ path', (s, path') ∈ level → ¬path' < path := by
  constructor
  · rintro ⟨hb, hl⟩
    refine ⟨(h.mem_level _ _).2 ⟨hb.entry, hl⟩, ?_⟩
    intro path' hp'
    obtain ⟨he, hl'⟩ := (h.mem_level _ _).1 hp'
    exact (hb.2 path' he.chain).2 (hl'.trans hl.symm)
  · rintro ⟨hp, hmin⟩
    obtain ⟨he, hl⟩ := (h.mem_level _ _).1 hp
    refine ⟨⟨he.chain, fun path' hc => ⟨hl ▸ hs path' hc, ?_⟩⟩, hl⟩
    intro hlen
    obtain ⟨path'', hp'', hle⟩ := h.exists_entry hs hc (hlen.trans hl)
    exact not_lt_trans (hmin path'' hp'') hle

theorem mem_expanded_iff (h : IsLevel F r n pool level) {s : String} {path : List Nat}
    {fs : List FieldDecl} : ((s, path), fs) ∈ Expansion.expanded pool level ↔
      Members.get? s F = some fs ∧ Best F r path s ∧ path.length = n := by
  rw [Expansion.mem_expanded h.nodup h.sorted, h.mem_pool]
  constructor
  · rintro ⟨⟨hs, hd⟩, hmin⟩
    exact ⟨hs, (h.best_iff hd).2 hmin⟩
  · rintro ⟨hs, hb, hl⟩
    have hd (path' : List Nat) (hc : Chain F r path' s) : n ≤ path'.length :=
      hl ▸ (hb.2 path' hc).1
    exact ⟨⟨hs, hd⟩, (h.best_iff hd).1 ⟨hb, hl⟩⟩

/-- Of the embeddings that a level lists for a record, one comes first. -/
theorem exists_first (h : IsLevel F r n pool level) {s : String} {path : List Nat}
    (hp : (s, path) ∈ level) :
    ∃ first, (s, first) ∈ level ∧ ∀ path', (s, path') ∈ level → ¬path' < first := by
  have hsorted := h.sorted
  clear h
  induction level with
  | nil => cases hp
  | cons e level ih =>
    obtain ⟨hlt, hrest⟩ := List.pairwise_cons.1 hsorted
    obtain ⟨t, q⟩ := e
    by_cases hts : t = s
    · subst hts
      refine ⟨q, List.mem_cons_self, ?_⟩
      intro path' hp'
      rcases List.mem_cons.1 hp' with heq | hp'
      · cases heq
        exact List.lt_irrefl _
      · exact List.lt_asymm (hlt _ hp')
    · have hne {path' : List Nat} (h : (s, path') ∈ (t, q) :: level) : (s, path') ∈ level := by
        rcases List.mem_cons.1 h with heq | h
        · cases heq
          exact absurd rfl hts
        · exact h
      obtain ⟨first, hf, hmin⟩ := ih (hne hp) hrest
      exact ⟨first, List.mem_cons_of_mem _ hf, fun path' hp' => hmin path' (hne hp')⟩

theorem mem_below (h : IsLevel F r n pool level) (copies : String → Nat) {t : String}
    {path : List Nat} : (t, path) ∈ (Expansion.ofLevel copies pool level).below ↔
      Entry F r path t ∧ path.length = n + 1 := by
  rw [(Expansion.ofLevel_spec copies pool level).2, List.mem_flatMap]
  constructor
  · rintro ⟨⟨⟨s, q⟩, fs⟩, he, hp⟩
    obtain ⟨hs, hb, hl⟩ := h.mem_expanded_iff.1 he
    obtain ⟨k, d, hd, hr, rfl⟩ := Flattening.mem_promotions.1 hp
    exact ⟨.inr ⟨q, s, k, hb, ⟨fs, d, hs, hd, hr⟩, rfl⟩, by simpa using hl⟩
  · rintro ⟨⟨rfl, rfl⟩ | ⟨q, s, k, hb, ⟨fs, d, hs, hd, hr⟩, rfl⟩, hl⟩
    · cases hl
    · exact ⟨((s, q), fs), h.mem_expanded_iff.2 ⟨hs, hb, by simpa using hl⟩,
        Flattening.mem_promotions.2 ⟨k, d, hd, hr, rfl⟩⟩

/-- **One level of the loop keeps the invariant.** -/
theorem below (h : IsLevel F r n pool level) (copies : String → Nat) :
    IsLevel F r (n + 1) (Expansion.ofLevel copies pool level).pool
      (Expansion.ofLevel copies pool level).below where
  nodup := Expansion.nodup_pool copies h.nodup level
  mem_pool s fs := by
    rw [Expansion.get?_pool copies h.nodup level]
    split
    · next hmem =>
      obtain ⟨⟨_, path⟩, hp, rfl⟩ := List.mem_map.1 hmem
      obtain ⟨he, hl⟩ := (h.mem_level _ _).1 hp
      refine ⟨nofun, fun ⟨_, hd⟩ => ?_⟩
      have := hd path he.chain
      omega
    · next hmem =>
      rw [h.mem_pool]
      refine and_congr_right fun _ => ⟨?_, ?_⟩
      · intro hd path hc
        -- a chain of `n` embeddings would have put the record on the level
        have hne : path.length ≠ n := fun hl => by
          obtain ⟨path', hp', -⟩ := h.exists_entry hd hc hl
          exact hmem (List.mem_map_of_mem hp')
        have := hd path hc
        omega
      · intro hd path hc
        have := hd path hc
        omega
  mem_level s path := h.mem_below copies
  sorted := by
    rw [(Expansion.ofLevel_spec copies pool level).2, List.pairwise_flatMap]
    refine ⟨fun e _ => Flattening.pairwise_promotions _ _, ?_⟩
    refine (Expansion.sorted_expanded h.sorted).imp_of_mem ?_
    rintro ⟨⟨s, q⟩, fs⟩ ⟨⟨s', q'⟩, fs'⟩ hm hm' hlt ⟨t, p⟩ hp ⟨t', p'⟩ hp'
    obtain ⟨k, d, -, -, rfl⟩ := Flattening.mem_promotions.1 hp
    obtain ⟨k', d', -, -, rfl⟩ := Flattening.mem_promotions.1 hp'
    have hl := (h.mem_expanded_iff.1 hm).2.2.trans (h.mem_expanded_iff.1 hm').2.2.symm
    exact (append_lt_append hl).2 (.inl hlt)
  best s path hc hl := by
    by_cases hd : ∀ path, Chain F r path s → n ≤ path.length
    · have hlen := hd path hc
      obtain ⟨path', hp', -⟩ := h.exists_entry hd hc (by omega)
      obtain ⟨first, hf⟩ := h.exists_first hp'
      exact ⟨first, ((h.best_iff hd).2 hf).1⟩
    · simp only [Classical.not_forall, Nat.not_le] at hd
      obtain ⟨path', hc', hl'⟩ := hd
      exact h.best s path' hc' hl'

end IsLevel

/-! ## What a level finds -/

theorem copiesOn_ne_zero (level : List Promotion) (s : String) : copiesOn level s ≠ 0 := by
  unfold copiesOn
  split <;> omega

/-- The fields of a record count twice if the level lists it at other positions too. -/
theorem one_lt_countP (hl : level.Pairwise fun a b => a.2 < b.2) {s : String} {path : List Nat}
    (hp : (s, path) ∈ level) :
    1 < level.countP (·.1 = s) ↔ ∃ path', (s, path') ∈ level ∧ path' ≠ path := by
  have hmem (path' : List Nat) : (s, path') ∈ level.filter (·.1 = s) ↔ (s, path') ∈ level := by
    simp
  have hrec (e : Promotion) (he : e ∈ level.filter (·.1 = s)) : e.1 = s := by
    simpa using (List.mem_filter.1 he).2
  have hsorted := hl.sublist (List.filter_sublist (p := fun e => decide (e.1 = s)))
  simp only [List.countP_eq_length_filter, ← hmem]
  rw [← hmem] at hp
  generalize level.filter (·.1 = s) = es at hp hrec hsorted
  match es, hp with
  | [e], hp =>
    simp only [List.mem_singleton] at hp ⊢
    subst hp
    simp
  | e :: e' :: es, hp =>
    have hlt : e.2 < e'.2 := (List.pairwise_cons.1 hsorted).1 e' List.mem_cons_self
    refine ⟨?_, fun _ => by simp⟩
    intro _
    obtain ⟨t, q⟩ := e
    obtain ⟨t', q'⟩ := e'
    obtain rfl : t = s := hrec _ List.mem_cons_self
    obtain rfl : t' = t := hrec _ (List.mem_cons_of_mem _ List.mem_cons_self)
    by_cases hq : q = path
    · refine ⟨q', List.mem_cons_of_mem _ List.mem_cons_self, ?_⟩
      rintro rfl
      exact List.lt_irrefl _ (hq ▸ hlt)
    · exact ⟨q, List.mem_cons_self, hq⟩

namespace IsLevel

/-- What the level `n` finds. -/
theorem mem_found (h : IsLevel F r n pool level) {f : Field} :
    f ∈ (Expansion.ofLevel (copiesOn level) pool level).found.fields ↔
      ∃ s path i, Best F r path s ∧ path.length = n ∧ Declares F s i f.name f.tagged ∧
        f.index = path ++ [i] := by
  rw [(Expansion.ofLevel_spec _ pool level).1, List.mem_flatMap]
  constructor
  · rintro ⟨⟨⟨s, path⟩, fs⟩, he, hf⟩
    obtain ⟨hs, hb, hl⟩ := h.mem_expanded_iff.1 he
    obtain ⟨i, d, hd, hr, hi⟩ := (Flattening.mem_visibleFields (copiesOn_ne_zero level s)).1 hf
    exact ⟨s, path, i, hb, hl, ⟨fs, d, hs, hd, hr⟩, hi⟩
  · rintro ⟨s, path, i, hb, hl, ⟨fs, d, hs, hd, hr⟩, hi⟩
    exact ⟨((s, path), fs), h.mem_expanded_iff.2 ⟨hs, hb, hl⟩,
      (Flattening.mem_visibleFields (copiesOn_ne_zero level s)).2 ⟨i, d, hd, hr, hi⟩⟩

/-- The fields of a record count twice on a level exactly if they are doubled. -/
theorem copiesOn_eq (h : IsLevel F r n pool level) {s : String} {path : List Nat}
    {fs : List FieldDecl} (he : ((s, path), fs) ∈ Expansion.expanded pool level) {f : Field}
    (hf : f ∈ Flattening.visibleFields (copiesOn level s) path fs) :
    (copiesOn level s = 2 ∧ Doubled F r f) ∨ (copiesOn level s = 1 ∧ ¬Doubled F r f) := by
  obtain ⟨hs, hb, hl⟩ := h.mem_expanded_iff.1 he
  obtain ⟨i, d, -, -, hi⟩ := (Flattening.mem_visibleFields (copiesOn_ne_zero level s)).1 hf
  have hp : (s, path) ∈ level := (h.mem_level _ _).2 ⟨hb.entry, hl⟩
  have hd : Doubled F r f ↔ 1 < level.countP (·.1 = s) := by
    rw [one_lt_countP h.sorted hp]
    constructor
    · rintro ⟨s', q, q', i', hb', he', hlen, hne, hi'⟩
      rw [hi] at hi'
      obtain ⟨rfl, -⟩ := List.append_inj' hi' rfl
      obtain rfl := hb.1.unique hb'.1
      exact ⟨q', (h.mem_level _ _).2 ⟨he', hlen.trans hl⟩, hne⟩
    · rintro ⟨q', hq', hne⟩
      obtain ⟨he', hl'⟩ := (h.mem_level _ _).1 hq'
      exact ⟨s, path, q', i, hb, he', hl'.trans hl.symm, hne, hi⟩
  rw [hd, copiesOn]
  split
  · next hlt => exact .inl ⟨rfl, hlt⟩
  · next hlt => exact .inr ⟨rfl, hlt⟩

/-- A field that is found twice is doubled. -/
theorem pairwise_found (h : IsLevel F r n pool level) :
    (Expansion.ofLevel (copiesOn level) pool level).found.fields.Pairwise
      fun f g => f = g → Doubled F r f := by
  rw [(Expansion.ofLevel_spec _ pool level).1, List.pairwise_flatMap]
  constructor
  · rintro ⟨⟨s, path⟩, fs⟩ he
    rcases Nat.lt_or_ge 1 (level.countP (·.1 = s)) with hlt | hge
    · refine List.pairwise_of_forall_mem_list ?_
      intro f hf g _ _
      rcases h.copiesOn_eq he hf with ⟨-, hd⟩ | ⟨hc, -⟩
      · exact hd
      · rw [copiesOn, if_pos hlt] at hc
        cases hc
    · have hc : copiesOn level s = 1 := if_neg (Nat.not_lt.2 hge)
      dsimp only
      rw [hc]
      exact (Flattening.pairwise_visibleFields path fs).imp fun hne heq => absurd heq hne
  · refine (Expansion.sorted_expanded h.sorted).imp_of_mem ?_
    rintro ⟨⟨s, q⟩, fs⟩ ⟨⟨s', q'⟩, fs'⟩ hm hm' hlt f hf g hg rfl
    obtain ⟨i, -, -, -, hi⟩ := (Flattening.mem_visibleFields (copiesOn_ne_zero level s)).1 hf
    obtain ⟨i', -, -, -, hi'⟩ := (Flattening.mem_visibleFields (copiesOn_ne_zero level s')).1 hg
    obtain ⟨rfl, -⟩ := List.append_inj' (hi.symm.trans hi') rfl
    exact absurd hlt (List.lt_irrefl _)

/-- A doubled field is found twice. -/
theorem sublist_found (h : IsLevel F r n pool level) {f : Field}
    (hf : f ∈ (Expansion.ofLevel (copiesOn level) pool level).found.fields)
    (hd : Doubled F r f) :
    [f, f].Sublist (Expansion.ofLevel (copiesOn level) pool level).found.fields := by
  rw [(Expansion.ofLevel_spec _ pool level).1] at hf ⊢
  obtain ⟨⟨⟨s, path⟩, fs⟩, he, hf⟩ := List.mem_flatMap.1 hf
  refine .trans ?_ (List.sublist_flatten_of_mem (List.mem_map_of_mem he))
  rcases h.copiesOn_eq he hf with ⟨hc, -⟩ | ⟨-, hn⟩
  · simp only [hc] at hf ⊢
    exact Flattening.sublist_visibleFields hf
  · exact absurd hd hn

end IsLevel

/-! ## All levels -/

/-- The best chains on the way to the end of a best chain have all smaller lengths. -/
theorem Best.exists_length {path : List Nat} {s : String} (h : Best F r path s) {m : Nat}
    (hm : m ≤ path.length) : ∃ q p, Best F r q p ∧ q.length = m := by
  rcases Nat.eq_or_lt_of_le hm with rfl | hlt
  · exact ⟨path, s, h, rfl⟩
  · rcases h.entry with ⟨rfl, rfl⟩ | ⟨q, p, k, hq, he, rfl⟩
    · cases hlt
    · exact hq.exists_length (by simpa using Nat.le_of_lt_succ (by simpa using hlt))
termination_by path.length
decreasing_by simp_all

/-- A level below which nothing is promoted is the last one that a best chain reaches. -/
theorem IsLevel.le_of_below_eq_nil (h : IsLevel F r n pool level) (copies : String → Nat)
    (hb : (Expansion.ofLevel copies pool level).below = []) {path : List Nat} {s : String}
    (hbest : Best F r path s) : path.length ≤ n := by
  refine Nat.le_of_not_lt ?_
  intro hlt
  obtain ⟨q, p, hq, hl⟩ := hbest.exists_length hlt
  have hmem := (h.mem_below copies).2 ⟨hq.entry, hl⟩
  rw [hb] at hmem
  cases hmem

/-- **What the levels from `n` on find**: the visible fields of each record, at the end of
    its best chain. -/
theorem mem_fields_iff (h : IsLevel F r n pool level) {f : Field} :
    f ∈ (Flattening.ofLevel pool level).fields ↔
      ∃ s path i, Best F r path s ∧ n ≤ path.length ∧ Declares F s i f.name f.tagged ∧
        f.index = path ++ [i] := by
  fun_induction Flattening.ofLevel pool level generalizing n with
  | case1 pool level out =>
    rw [h.mem_found]
    constructor
    · rintro ⟨s, path, i, hbest, hl, hf⟩
      exact ⟨s, path, i, hbest, Nat.le_of_eq hl.symm, hf⟩
    · rintro ⟨s, path, i, hbest, hl, hf⟩
      exact ⟨s, path, i, hbest, Nat.le_antisymm (h.le_of_below_eq_nil _ ‹_› hbest) hl, hf⟩
  | case2 pool level out hb =>
    rename_i ih
    rw [Flattening.append, List.mem_append, h.mem_found, ih (h.below _)]
    constructor
    · rintro (⟨s, path, i, hbest, hl, hf⟩ | ⟨s, path, i, hbest, hl, hf⟩)
      · exact ⟨s, path, i, hbest, Nat.le_of_eq hl.symm, hf⟩
      · exact ⟨s, path, i, hbest, Nat.le_of_succ_le hl, hf⟩
    · rintro ⟨s, path, i, hbest, hl, hf⟩
      rcases Nat.eq_or_lt_of_le hl with hl | hl
      · exact .inl ⟨s, path, i, hbest, hl.symm, hf⟩
      · exact .inr ⟨s, path, i, hbest, hl, hf⟩

/-- A field that is found twice is doubled. -/
theorem pairwise_fields (h : IsLevel F r n pool level) :
    (Flattening.ofLevel pool level).fields.Pairwise fun f g => f = g → Doubled F r f := by
  fun_induction Flattening.ofLevel pool level generalizing n with
  | case1 pool level out => exact h.pairwise_found
  | case2 pool level out hb =>
    rename_i ih
    rw [Flattening.append, List.pairwise_append]
    refine ⟨h.pairwise_found, ih (h.below _), ?_⟩
    rintro f hf g hg rfl
    obtain ⟨s, path, i, -, hl, -, hi⟩ := h.mem_found.1 hf
    obtain ⟨s', path', i', -, hl', -, hi'⟩ := (mem_fields_iff (h.below _)).1 hg
    obtain ⟨rfl, -⟩ := List.append_inj' (hi.symm.trans hi') rfl
    omega

/-- A doubled field is found twice. -/
theorem sublist_fields (h : IsLevel F r n pool level) {f : Field}
    (hf : f ∈ (Flattening.ofLevel pool level).fields) (hd : Doubled F r f) :
    [f, f].Sublist (Flattening.ofLevel pool level).fields := by
  fun_induction Flattening.ofLevel pool level generalizing n with
  | case1 pool level out => exact h.sublist_found hf hd
  | case2 pool level out hb =>
    rename_i ih
    rw [Flattening.append, List.mem_append] at hf
    rcases hf with hf | hf
    · exact (h.sublist_found hf hd).trans (List.sublist_append_left _ _)
    · exact (ih (h.below _) hf).trans (List.sublist_append_right _ _)

end DocPointer
