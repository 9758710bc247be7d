/-
  What is read of a text that was written.

  A value that was read nests no deeper than it may, for the assembly opens a container only
  where there is room (`Assembly.Bounded`, kept by one lexeme and so by a text).  What is
  written for it is therefore read again, and so is what is written for a value that nests
  no deeper.  It is read with the same names and items in the same order, and with the
  numbers that are read where its numbers were printed (`Number.reread`): integers are the
  same, doubles need not be.

  * `Json.room_of_ofBytes?`: how deep a value nests that was read.
  * `Json.ofBytes?_toBytes_eq`: what is read where a value was written; `Number.reread_int`: the
    integers in it.
-/
import DocPointer.Proofs.Json.Reader
import DocPointer.Proofs.Json.Roundtrip

namespace DocPointer

/-! ## How deep values nest -/

namespace Json

variable {j : Json} {xs : List Json} {ms : Members Json} {n : Nat}

theorem Flat.height_eq (h : j.Flat) : j.height = 0 := by
  cases j with
  | arr | obj => exact h.elim
  | _ => rfl

theorem heightOfItems_le : heightOfItems xs ≤ n ↔ ∀ x ∈ xs, x.height ≤ n := by
  induction xs with
  | nil => simp [heightOfItems]
  | cons x xs ih => simp [heightOfItems, ih]

theorem heightOfMembers_le : heightOfMembers ms ≤ n ↔ ∀ m ∈ ms, m.2.height ≤ n := by
  induction ms with
  | nil => simp [heightOfMembers]
  | cons m ms ih => simp [heightOfMembers, ih]

theorem heightOfItems_mono {ys : List Json} (h : xs ⊆ ys) : heightOfItems xs ≤ heightOfItems ys :=
  heightOfItems_le.2 fun x hx => heightOfItems_le.1 (Nat.le_refl _) x (h hx)

theorem heightOfMembers_mono {ns : Members Json} (h : ms ⊆ ns) :
    heightOfMembers ms ≤ heightOfMembers ns :=
  heightOfMembers_le.2 fun m hm => heightOfMembers_le.1 (Nat.le_refl _) m (h hm)

theorem heightOfMembers_put (name : String) (v : Json) (ms : Members Json) :
    heightOfMembers (Members.put name v ms) ≤ max v.height (heightOfMembers ms) := by
  refine heightOfMembers_le.2 fun m hm => ?_
  rcases Members.mem_put hm with rfl | hm
  · exact Nat.le_max_left ..
  · exact Nat.le_trans (heightOfMembers_le.1 (Nat.le_refl _) m hm) (Nat.le_max_right ..)

end Json

/-- How deep containers nest in what was read of an open one. -/
def OpenContainer.height : OpenContainer → Nat
  | arr items => Json.heightOfItems items
  | obj members _ => Json.heightOfMembers members

namespace Assembly

variable {depth : Option Nat} {stack : List OpenContainer} {l : Lexeme} {j : Json} {a b : Assembly}

/-- Every open container has room for what was read of it. -/
def Roomy (depth : Option Nat) : List OpenContainer → Prop
  | [] => True
  | o :: stack => Room depth (stack.length + 1 + o.height) ∧ Roomy depth stack

/-- All that has been read nests no deeper than it may. -/
def Bounded (depth : Option Nat) : Assembly → Prop
  | value stack => Roomy depth stack
  | firstItem stack | firstName stack => Room depth (stack.length + 1) ∧ Roomy depth stack
  | name members stack | colon members _ stack =>
    Room depth (stack.length + 1 + Json.heightOfMembers members) ∧ Roomy depth stack
  | next top stack => Roomy depth (top :: stack)
  | done j => Room depth j.height

theorem Roomy.room (h : Roomy depth stack) : Room depth stack.length := by
  cases stack with
  | nil => exact fun d _ => Nat.zero_le d
  | cons o stack => exact h.1.mono (Nat.le_add_right ..)

theorem room_of_fits {n : Nat} (h : fits depth n = true) : Room depth (n + 1) := by
  rintro d rfl
  exact of_decide_eq_true h

theorem Room.max {m n : Nat} (hm : Room depth m) (hn : Room depth n) : Room depth (max m n) :=
  fun d hd => Nat.max_le.2 ⟨hm d hd, hn d hd⟩

theorem bounded_deliver (hj : Room depth (stack.length + j.height)) (hs : Roomy depth stack) :
    (deliver j stack).Bounded depth := by
  cases stack with
  | nil => exact hj.mono (Nat.le_add_left ..)
  | cons top stack =>
    obtain ⟨htop, hs⟩ := hs
    have hroom := Room.max hj htop
    cases top with
    | arr items =>
      refine ⟨hroom.mono ?_, hs⟩
      simp only [OpenContainer.height, Json.heightOfItems, List.length_cons]
      omega
    | obj members k =>
      refine ⟨hroom.mono ?_, hs⟩
      have hput := Json.heightOfMembers_put k j members
      simp only [OpenContainer.height, List.length_cons]
      omega

theorem bounded_begin? (hs : Roomy depth stack) (hl : l.Flat) (h : begin? depth stack l = some a) :
    a.Bounded depth := by
  cases l with
  | scalar j =>
    cases h
    refine bounded_deliver ?_ hs
    rw [Json.Flat.height_eq hl]
    exact hs.room
  | openArr | openObj =>
    simp only [begin?] at h
    split at h
    · next hfits =>
      cases h
      exact ⟨room_of_fits hfits, hs⟩
    · cases h
  | _ => cases h

/-- The step lemma: a lexeme opens no container where there is no room for it. -/
theorem bounded_step (ha : a.Bounded depth) (hl : l.Flat) (h : a.step depth l = some b) :
    b.Bounded depth := by
  fun_cases step depth a l with
  | case1 stack => exact bounded_begin? ha hl h
  | case2 stack => cases h; exact bounded_deliver ha.1 ha.2
  | case3 stack l hl' =>
    rw [step.eq_3 _ _ _ hl'] at h
    have hstack : Roomy depth (.arr [] :: stack) := ha
    exact bounded_begin? hstack hl h
  | case4 stack => cases h; exact bounded_deliver ha.1 ha.2
  | case5 stack k => cases h; exact ha
  | case6 members stack k => cases h; exact ha
  | case7 members k stack => cases h; exact ha
  | case8 items stack => cases h; exact ha
  | case9 items stack =>
    cases h
    refine bounded_deliver (ha.1.mono ?_) ha.2
    have hitems := Json.heightOfItems_mono (List.reverse_subset.2 (List.Subset.refl items))
    simp only [OpenContainer.height, Json.height]
    omega
  | case10 members k stack => cases h; exact ha
  | case11 members k stack =>
    cases h
    refine bounded_deliver (ha.1.mono ?_) ha.2
    simp only [OpenContainer.height, Json.height]
    omega
  | case12 a l => simp_all [step]

theorem bounded_run {ls : List Lexeme} (ha : a.Bounded depth) (hl : ∀ l ∈ ls, l.Flat)
    (h : a.run depth ls = some b) : b.Bounded depth := by
  induction ls generalizing a with
  | nil => cases h; exact ha
  | cons l ls ih =>
    obtain ⟨hl, hls⟩ := List.forall_mem_cons.1 hl
    obtain ⟨c, hc, h⟩ := Option.bind_eq_some_iff.1 h
    exact ih (bounded_step ha hl hc) hls h

end Assembly

/-- **A value that was read nests no deeper than it may.** -/
theorem Json.room_of_ofBytes? {r : Reading} {bytes : ByteArray} {j : Json}
    (h : Json.ofBytes? r bytes = some j) : Room r.depth j.height := by
  obtain ⟨s, -, h⟩ := Option.bind_eq_some_iff.1 h
  obtain ⟨ls, hls, h⟩ := Option.bind_eq_some_iff.1 h
  obtain ⟨a, ha, h⟩ := Option.bind_eq_some_iff.1 h
  have hstart : (Assembly.value []).Bounded r.depth := trivial
  have hb := Assembly.bounded_run hstart (Scan.flat_lexemes hls) ha
  cases a with
  | done k => cases h; exact hb
  | _ => cases h

/-! ## Numbers -/

namespace Number

/-- The number that is read where `n` was printed. -/
def reread (r : Rounding) (n : Number) : Number := (read? r n.print).getD n

theorem read?_print_eq (r : Rounding) (n : Number) : read? r n.print = some (reread r n) := by
  obtain ⟨m, hm⟩ := exists_read?_print r n
  rw [reread, hm]
  rfl

/-- An integer is read as it was printed. -/
theorem reread_int (r : Rounding) {n : Int}
    (h : -0x8000000000000000 ≤ n ∧ n < 0x10000000000000000) : reread r (.int n h) = .int n h := by
  rw [reread, print, read?_ofInt r h]
  rfl

end Number

namespace Json

theorem renumberItems_eq (g : Number → Number) (xs : List Json) :
    renumberItems g xs = xs.map (renumber g) := by
  induction xs with
  | nil => rfl
  | cons x xs ih => rw [renumberItems, ih, List.map_cons]

theorem renumberMembers_eq (g : Number → Number) (ms : Members Json) :
    renumberMembers g ms = ms.map fun m => (m.1, m.2.renumber g) := by
  induction ms with
  | nil => rfl
  | cons m ms ih => rw [renumberMembers, ih, List.map_cons]

theorem names_renumberMembers (g : Number → Number) (ms : Members Json) :
    Members.names (renumberMembers g ms) = Members.names ms := by
  rw [renumberMembers_eq, Members.names, List.map_map]
  rfl

mutual

theorem wellformed_renumber (g : Number → Number) : ∀ {j : Json}, j.Wellformed →
    (j.renumber g).Wellformed
  | .null, _ | .bool _, _ | .num _, _ | .str _, _ => trivial
  | .arr _, h => wellformedItems_renumber g h
  | .obj ms, h => ⟨names_renumberMembers g ms ▸ h.1, wellformedMembers_renumber g h.2⟩

theorem wellformedItems_renumber (g : Number → Number) : ∀ {xs : List Json}, WellformedItems xs →
    WellformedItems (renumberItems g xs)
  | [], _ => trivial
  | _ :: _, h => ⟨wellformed_renumber g h.1, wellformedItems_renumber g h.2⟩

theorem wellformedMembers_renumber (g : Number → Number) : ∀ {ms : List (String × Json)},
    WellformedMembers ms → WellformedMembers (renumberMembers g ms)
  | [], _ => trivial
  | _ :: _, h => ⟨wellformed_renumber g h.1, wellformedMembers_renumber g h.2⟩

end

/-- **Where a value was written it is read with its numbers as they are read**, if it nests no
    deeper than it may. -/
theorem ofBytes?_toBytes_eq {r : Reading} {j : Json} (hj : j.Wellformed)
    (hroom : Room r.depth j.height) :
    ofBytes? r j.toBytes = some (j.renumber (Number.reread r.rounding)) := by
  rw [toBytes, ofBytes?_toUTF8, read?_text_eq (Number.read?_print_eq r.rounding) hroom,
    merged_of_wellformed (wellformed_renumber _ hj)]

end Json

end DocPointer
