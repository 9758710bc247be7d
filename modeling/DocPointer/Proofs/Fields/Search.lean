/-
  The search of the flattening, round by round.

  A `Search` keeps the records that it has visited.  A round visits the records of the level in
  turn: one that was visited is passed over, and any other is expanded, and puts the records that
  its fields promote on the level below, visited or not.  So the work list does not shrink; but a
  round that visits nothing new leaves it empty.

  * `foldl_visit`: a round is one level of the flattening, whose pool holds the records that were
    not visited (`Remains`).
  * `exists_runs`: the rounds end, and have found what the flattening finds, by induction on the
    levels: each that promotes anything takes a record out of the pool.
  * `length_lt_of_best`: the levels above a record have taken as many records out of the pool.
  * `search_ends`: what this means for an index.
-/
import DocPointer.Proofs.Fields.Routes

namespace DocPointer

/-! ## Rounds -/

/-- The search between two rounds. -/
structure Search where
  /-- The records that were expanded, each with the positions that led to it. -/
  visited : List Promotion
  level : List Promotion
  found : Flattening

namespace Search

/-- Before the first round there is only the record itself. -/
def start (r : String) : Search := ⟨[], [(r, [])], .empty⟩

section
variable (F : Family)

/-- Expands a record, unless it was visited. -/
def visit (copies : String → Nat) (s : Search) (p : Promotion) : Search :=
  if p.1 ∈ s.visited.map (·.1) then s
  else match Members.get? p.1 F with
    | none => s
    | some fs =>
      ⟨s.visited ++ [p], s.level ++ Flattening.promotions p.2 fs,
        s.found.append
          ⟨Flattening.visibleFields (copies p.1) p.2 fs, Flattening.unexportedNames fs⟩⟩

/-- A round: the level is taken, and its records are visited in turn. -/
def next (s : Search) : Search :=
  s.level.foldl (visit F (copiesOn s.level)) { s with level := [] }

/-- The search goes from one state to another in so many rounds, and ends there because nothing
    is left on the level. -/
inductive Runs : Nat → Search → Search → Prop where
  | done {s : Search} : s.level = [] → Runs 0 s s
  | round {n : Nat} {s t : Search} : s.level ≠ [] → Runs n (next F s) t → Runs (n + 1) s t

/-- The pool holds the records that were not visited. -/
structure Remains (visited : List Promotion) (pool : Family) : Prop where
  nodup : (Members.names pool).Nodup
  get? (t : String) :
    Members.get? t pool = if t ∈ visited.map (·.1) then none else Members.get? t F

/-- Each record was expanded once at most, and is one of the family. -/
structure Frugal (s : Search) : Prop where
  nodup : (s.visited.map (·.1)).Nodup
  subset : s.visited.map (·.1) ⊆ Members.names F

end

end Search

namespace Flattening

@[simp]
theorem append_empty (a : Flattening) : a.append .empty = a := by simp [append, empty]

@[simp]
theorem empty_append (a : Flattening) : empty.append a = a := rfl

theorem append_assoc (a b c : Flattening) : (a.append b).append c = a.append (b.append c) := by
  simp [append]

end Flattening

namespace Search

variable {F : Family} {r : String} {visited level : List Promotion} {pool : Family} {s t : Search}
  {n : Nat}

theorem remains_nil (hF : (Members.names F).Nodup) : Remains F [] F := ⟨hF, fun _ => by simp⟩

/-- What is expanded does not remain. -/
theorem Remains.remove (h : Remains F visited pool) (p : Promotion) :
    Remains F (visited ++ [p]) (Members.remove p.1 pool) := by
  refine ⟨Members.nodup_remove h.nodup p.1, ?_⟩
  intro t
  by_cases ht : t = p.1
  · rw [ht, Members.get?_remove_self h.nodup, if_pos (by simp)]
  · have hmem : t ∈ (visited ++ [p]).map (·.1) ↔ t ∈ visited.map (·.1) := by simp [ht]
    rw [Members.get?_remove_of_ne ht, h.get?]
    simp only [hmem]

/-- **A round is a level of the flattening.** -/
theorem foldl_visit (copies : String → Nat) (h : Remains F s.visited pool)
    (level : List Promotion) :
    let t := level.foldl (visit F copies) s
    Remains F t.visited (Expansion.ofLevel copies pool level).pool ∧
      t.level = s.level ++ (Expansion.ofLevel copies pool level).below ∧
      t.found = s.found.append (Expansion.ofLevel copies pool level).found := by
  induction level generalizing s pool with
  | nil => exact ⟨h, by simp [Expansion.ofLevel], by simp [Expansion.ofLevel]⟩
  | cons p level ih =>
    obtain ⟨record, path⟩ := p
    have hget := h.get? record
    cases hr : Members.get? record pool with
    | none =>
      have hvisit : visit F copies s (record, path) = s := by
        rw [hr] at hget
        simp only [visit]
        split
        · rfl
        · next hmem =>
          rw [if_neg hmem] at hget
          rw [← hget]
      simp only [List.foldl_cons, hvisit, Expansion.ofLevel, hr]
      exact ih h
    | some fs =>
      rw [hr] at hget
      split at hget
      · cases hget
      · next hmem =>
        have hrest :
            Remains F (visit F copies s (record, path)).visited (Members.remove record pool) := by
          simp only [visit, if_neg hmem, ← hget]
          exact h.remove (record, path)
        obtain ⟨hpool, hlevel, hfound⟩ := ih hrest
        rw [List.foldl_cons]
        refine ⟨?_, ?_, ?_⟩
        · simpa only [Expansion.ofLevel, hr] using hpool
        · rw [hlevel]
          simp only [visit, if_neg hmem, ← hget, Expansion.ofLevel, hr, List.append_assoc]
        · rw [hfound]
          simp only [visit, if_neg hmem, ← hget, Expansion.ofLevel, hr, Flattening.append_assoc]

theorem next_spec (h : Remains F s.visited pool) :
    Remains F (next F s).visited (Expansion.ofLevel (copiesOn s.level) pool s.level).pool ∧
      (next F s).level = (Expansion.ofLevel (copiesOn s.level) pool s.level).below ∧
      (next F s).found =
        s.found.append (Expansion.ofLevel (copiesOn s.level) pool s.level).found := by
  exact foldl_visit (s := { s with level := [] }) (copiesOn s.level) h s.level

/-- **The rounds end**, and no later than one round after the pool is empty. -/
theorem exists_runs (h : Remains F s.visited pool) (hs : s.level = level) (hne : level ≠ []) :
    ∃ n t, n ≤ pool.length + 1 ∧ Runs F n s t ∧
      t.found = s.found.append (Flattening.ofLevel pool level) := by
  fun_induction Flattening.ofLevel pool level generalizing s with
  | case1 pool level out =>
    rename_i hb
    subst hs
    obtain ⟨-, hbelow, hfound⟩ := next_spec h
    exact ⟨1, next F s, by omega, .round hne (.done (hbelow.trans hb)), hfound⟩
  | case2 pool level out hb =>
    rename_i ih
    subst hs
    obtain ⟨hpool, hbelow, hfound⟩ := next_spec h
    obtain ⟨n, t, hn, hrun, ht⟩ := ih hpool hbelow hb
    have hlt : out.pool.length < pool.length := Expansion.pool_lt _ _ _ hb
    refine ⟨n + 1, t, by omega, .round hne hrun, ?_⟩
    rw [ht, hfound, Flattening.append_assoc]

/-! ## Visits -/

theorem Frugal.visit (h : Frugal F s) (copies : String → Nat) (p : Promotion) :
    Frugal F (visit F copies s p) := by
  rw [Search.visit]
  split
  · exact h
  · next hmem =>
    split
    · exact h
    · next fs hp =>
      constructor
      · rw [List.map_append, List.nodup_append]
        refine ⟨h.nodup, List.pairwise_singleton _ _, ?_⟩
        intro name hname last hlast heq
        rw [List.map_singleton, List.mem_singleton] at hlast
        exact hmem (hlast ▸ heq ▸ hname)
      · have hnames : p.1 ∈ Members.names F :=
          List.mem_map_of_mem (Members.mem_of_get? hp)
        simpa [List.append_subset] using ⟨h.subset, hnames⟩

theorem Frugal.foldl (h : Frugal F s) (copies : String → Nat) (level : List Promotion) :
    Frugal F (level.foldl (Search.visit F copies) s) := by
  induction level generalizing s with
  | nil => exact h
  | cons p level ih => exact ih (h.visit copies p)

/-- **No record is expanded twice.** -/
theorem Runs.frugal (hrun : Runs F n s t) (h : Frugal F s) : Frugal F t := by
  induction hrun with
  | done => exact h
  | @round n s t _ _ ih =>
    have hnext : Frugal F (next F s) :=
      Frugal.foldl (s := { s with level := [] }) ⟨h.nodup, h.subset⟩ (copiesOn s.level) s.level
    exact ih hnext

end Search

/-! ## Positions -/

section
variable {F : Family} {r : String} (hF : (Members.names F).Nodup)
include hF

/-- As many records were taken out of the pool as there are levels above one that is not
    empty. -/
theorem exists_isLevel_pool (r : String) (n : Nat) : ∃ pool level, IsLevel F r n pool level ∧
    (level ≠ [] → pool.length + n ≤ F.length) := by
  induction n with
  | zero => exact ⟨F, [(r, [])], .zero hF, fun _ => Nat.le_refl _⟩
  | succ n ih =>
    obtain ⟨pool, level, h, hpool⟩ := ih
    refine ⟨_, _, h.below (copiesOn level), ?_⟩
    intro hb
    have hlevel : level ≠ [] := by
      rintro rfl
      exact hb rfl
    have hlt := Expansion.pool_lt _ _ _ hb
    have hle := hpool hlevel
    omega

/-- The best chain to a record is shorter than the family is long. -/
theorem length_lt_of_best {path : List Nat} {s : String} {fs : List FieldDecl}
    (h : Best F r path s) (hs : Members.get? s F = some fs) : path.length < F.length := by
  obtain ⟨pool, level, hl, hpool⟩ := exists_isLevel_pool hF r path.length
  have hget : Members.get? s pool = some fs :=
    (hl.mem_pool s fs).2 ⟨hs, fun path' hc => (h.2 path' hc).1⟩
  have hmem : (s, path) ∈ level := (hl.mem_level _ _).2 ⟨h.entry, rfl⟩
  have hlen := List.length_pos_of_mem (Members.mem_of_get? hget)
  have hle := hpool (List.ne_nil_of_mem hmem)
  omega

/-- **No field has more positions than there are records.** -/
theorem length_index_le {f : Field} (h : f ∈ (FieldIndex.build F r).fields) :
    f.index.length ≤ F.length := by
  obtain ⟨s, path, i, hb, ⟨fs, d, hs, -⟩, hi⟩ := (mem_foundFields hF).1 (found_of_mem_build h)
  rw [hi, List.length_append]
  exact length_lt_of_best hF hb hs

end

/-- **The search ends on every family**, however its records embed each other: after as many
    rounds as there are records, and one more at most, nothing is left on the level.  It has
    expanded no record twice, what it has found is what the index is made of, and no field of the
    index has more positions than there are records. -/
theorem search_ends {F : Family} (hF : (Members.names F).Nodup) (r : String) :
    ∃ n s, n ≤ F.length + 1 ∧ Search.Runs F n (.start r) s ∧
      FieldIndex.build F r = .ofFlattening s.found ∧
      (s.visited.map (·.1)).Nodup ∧ s.visited.map (·.1) ⊆ Members.names F ∧
      ∀ f ∈ (FieldIndex.build F r).fields, f.index.length ≤ F.length := by
  obtain ⟨n, s, hn, hrun, hfound⟩ :=
    Search.exists_runs (s := .start r) (Search.remains_nil hF) rfl (List.cons_ne_nil _ _)
  obtain ⟨hnodup, hsubset⟩ := hrun.frugal ⟨List.nodup_nil, List.nil_subset _⟩
  refine ⟨n, s, hn, hrun, ?_, hnodup, hsubset, fun f => length_index_le hF⟩
  rw [hfound]
  rfl

/-- A record that embeds itself, in a ring of records that embed each other. -/
def ring : Family :=
  [("Red", [⟨"Self", none, true, some "Red"⟩, ⟨"Next", none, true, some "Green"⟩]),
    ("Green", [⟨"Next", none, true, some "Blue"⟩]),
    ("Blue", [⟨"Next", none, true, some "Red"⟩, ⟨"x", none, true, none⟩])]

/-- The field of the last record is found, at three positions. -/
theorem search_ends_ring : (Members.names ring).Nodup ∧
    (∃ n s, n ≤ 4 ∧ Search.Runs ring n (.start "Red") s ∧
      FieldIndex.build ring "Red" = .ofFlattening s.found ∧ (s.visited.map (·.1)).Nodup) ∧
    ∃ f ∈ (FieldIndex.build ring "Red").fields, f.name = "x" ∧ f.index.length ≤ 3 := by
  have hF : (Members.names ring).Nodup := by decide
  have hfields : (FieldIndex.build ring "Red").fields = [⟨"x", false, [1, 0, 1]⟩] := by
    decide +kernel
  obtain ⟨n, s, hn, hrun, hbuild, hnodup, -, hlength⟩ := search_ends hF "Red"
  have hx : (⟨"x", false, [1, 0, 1]⟩ : Field) ∈ (FieldIndex.build ring "Red").fields := by
    simp [hfields]
  exact ⟨hF, ⟨n, s, hn, hrun, hbuild, hnodup⟩, _, hx, rfl, hlength _ hx⟩

end DocPointer
