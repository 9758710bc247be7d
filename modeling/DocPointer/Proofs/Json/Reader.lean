/-
  What is read is well formed.

  The assembly only ever holds well-formed values: a lexeme is a value that holds no other
  (`Scan.flat_lexemes`), a name that comes twice replaces the value it had, and so no object
  in a finished value has a name twice.
-/
import DocPointer.Document.Codec
import DocPointer.Proofs.Json.Wellformed

namespace DocPointer

/-- A value that holds no other. -/
def Json.Flat : Json → Prop
  | arr _ | obj _ => False
  | _ => True

/-- A lexeme whose value, if it is one, holds no other. -/
def Lexeme.Flat : Lexeme → Prop
  | scalar j => j.Flat
  | _ => True

theorem Json.Flat.wellformed {j : Json} (h : j.Flat) : j.Wellformed := by
  cases j with
  | arr | obj => exact h.elim
  | _ => trivial

/-- The values read so far are well formed, and no name was kept twice. -/
def OpenContainer.Wellformed : OpenContainer → Prop
  | arr items => (Json.arr items).Wellformed
  | obj members _ => (Json.obj members).Wellformed

namespace Assembly

/-- All that has been read is well formed. -/
def Wellformed : Assembly → Prop
  | value stack | firstItem stack | firstName stack => ∀ o ∈ stack, o.Wellformed
  | name members stack | colon members _ stack =>
    (Json.obj members).Wellformed ∧ ∀ o ∈ stack, o.Wellformed
  | next top stack => top.Wellformed ∧ ∀ o ∈ stack, o.Wellformed
  | done j => j.Wellformed

theorem wellformed_deliver {j : Json} {stack : List OpenContainer} (hj : j.Wellformed)
    (hs : ∀ o ∈ stack, o.Wellformed) : (deliver j stack).Wellformed := by
  cases stack with
  | nil => exact hj
  | cons top stack =>
    obtain ⟨htop, htail⟩ := List.forall_mem_cons.1 hs
    cases top with
    | arr items =>
      refine ⟨Json.wellformed_arr.2 ?_, htail⟩
      intro x hx
      rcases List.mem_cons.1 hx with rfl | hx
      · exact hj
      · exact Json.wellformed_arr.1 htop x hx
    | obj members k => exact ⟨Json.wellformed_put htop hj, htail⟩

theorem wellformed_begin? {depth : Option Nat} {stack : List OpenContainer} {l : Lexeme}
    {a : Assembly} (hs : ∀ o ∈ stack, o.Wellformed) (hl : l.Flat)
    (h : begin? depth stack l = some a) : a.Wellformed := by
  cases l with
  | scalar j => cases h; exact wellformed_deliver (Json.Flat.wellformed hl) hs
  | openArr | openObj =>
    simp only [begin?] at h
    split at h <;> cases h
    exact hs
  | _ => cases h

/-- The step lemma: a lexeme keeps all that has been read well formed. -/
theorem wellformed_step {depth : Option Nat} {a b : Assembly} {l : Lexeme} (ha : a.Wellformed)
    (hl : l.Flat) (h : a.step depth l = some b) : b.Wellformed := by
  have harr : (Json.arr []).Wellformed := Json.wellformed_arr.2 (by simp)
  have hobj : (Json.obj []).Wellformed := Json.wellformed_obj.2 (by simp [Members.names])
  fun_cases step depth a l with
  | case1 stack => exact wellformed_begin? ha hl h
  | case2 stack => cases h; exact wellformed_deliver harr ha
  | case3 stack l hl' =>
    rw [step.eq_3 _ _ _ hl'] at h
    have htop : (OpenContainer.arr []).Wellformed := harr
    exact wellformed_begin? (List.forall_mem_cons.2 ⟨htop, ha⟩) hl h
  | case4 stack => cases h; exact wellformed_deliver hobj ha
  | case5 stack k => cases h; exact ⟨hobj, ha⟩
  | case6 members stack k => cases h; exact ha
  | case7 members k stack => cases h; exact List.forall_mem_cons.2 ha
  | case8 items stack => cases h; exact List.forall_mem_cons.2 ha
  | case9 items stack =>
    cases h
    refine wellformed_deliver (Json.wellformed_arr.2 ?_) ha.2
    intro x hx
    exact Json.wellformed_arr.1 ha.1 x (List.mem_reverse.1 hx)
  | case10 members k stack => cases h; exact ha
  | case11 members k stack => cases h; exact wellformed_deliver ha.1 ha.2
  | case12 a l => simp_all [step]

theorem wellformed_run {depth : Option Nat} {ls : List Lexeme} {a b : Assembly}
    (ha : a.Wellformed) (hl : ∀ l ∈ ls, l.Flat) (h : a.run depth ls = some b) :
    b.Wellformed := by
  induction ls generalizing a with
  | nil => cases h; exact ha
  | cons l ls ih =>
    obtain ⟨hl, hls⟩ := List.forall_mem_cons.1 hl
    obtain ⟨c, hc, h⟩ := Option.bind_eq_some_iff.1 h
    exact ih (wellformed_step ha hl hc) hls h

end Assembly

/-! ## Lexemes -/

namespace Scan

theorem flat_mark? {c : Char} {l : Lexeme} (h : Lexeme.mark? c = some l) :
    l.Flat := by
  simp only [Lexeme.mark?] at h
  split at h <;> cases h <;> trivial

theorem flat_start {c : Char} {l : Lexeme} (h : l ∈ (start c).2) : l.Flat := by
  simp only [start] at h
  split at h
  · cases h
  · split at h
    · cases h
    · split at h
      · next hm => exact List.mem_singleton.1 h ▸ flat_mark? hm
      · cases h

theorem flat_ofRun? {r : Rounding} {cs : List Char} {j : Json}
    (h : Lexeme.ofRun? r cs = some j) : j.Flat := by
  simp only [Lexeme.ofRun?] at h
  repeat' split at h
  · cases h; trivial
  · cases h; trivial
  · cases h; trivial
  · obtain ⟨n, -, rfl⟩ := Option.map_eq_some_iff.1 h
    trivial

theorem flat_scan {r : Rounding} {s s' : Scan} {c : Char} {ls : List Lexeme}
    (h : s.step r c = some (s', ls)) : ∀ l ∈ ls, l.Flat := by
  cases s with
  | gap =>
    obtain ⟨-, rfl⟩ := Prod.mk.inj (Option.some.inj h)
    intro l
    exact flat_start
  | run read =>
    simp only [step] at h
    split at h
    · obtain ⟨j, hj, hls⟩ := Option.map_eq_some_iff.1 h
      cases hls
      have hj : (Lexeme.scalar j).Flat := flat_ofRun? hj
      exact List.forall_mem_cons.2 ⟨hj, fun l => flat_start⟩
    · cases h; simp
  | text read =>
    simp only [step] at h
    split at h
    · cases h
      simp [Lexeme.Flat, Json.Flat]
    · repeat' split at h
      all_goals cases h <;> simp
  | escape read =>
    simp only [step] at h
    split at h
    · cases h; simp
    · obtain ⟨d, -, hls⟩ := Option.map_eq_some_iff.1 h
      cases hls; simp
  | hex read high left unit =>
    simp only [step] at h
    split at h
    · cases h
    · obtain ⟨d, -, hls⟩ := Option.map_eq_some_iff.1 h
      cases hls; simp
    · cases h; simp
  | half read high | halfEscape read high =>
    simp only [step] at h
    split at h <;> cases h
    simp

theorem flat_lexemes {r : Rounding} {s : Scan} {cs : List Char} {ls : List Lexeme}
    (h : s.lexemes r cs = some ls) : ∀ l ∈ ls, l.Flat := by
  fun_induction lexemes r s cs generalizing ls with
  | case1 => cases h; simp
  | case2 read =>
    obtain ⟨j, hj, rfl⟩ := Option.map_eq_some_iff.1 h
    have hj : (Lexeme.scalar j).Flat := flat_ofRun? hj
    simpa using hj
  | case3 => cases h
  | case4 => cases h
  | case5 s c cs s' ls' hs ih =>
    obtain ⟨rest, hrest, rfl⟩ := Option.map_eq_some_iff.1 h
    exact List.forall_mem_append.2 ⟨flat_scan hs, ih hrest⟩

end Scan

/-! ## Texts and bytes -/

/-- **A value that was read has no name twice in an object.** -/
theorem Json.wellformed_of_ofBytes? {r : Reading} {bytes : ByteArray} {j : Json}
    (h : Json.ofBytes? r bytes = some j) : j.Wellformed := by
  obtain ⟨s, -, h⟩ := Option.bind_eq_some_iff.1 h
  obtain ⟨ls, hls, h⟩ := Option.bind_eq_some_iff.1 h
  obtain ⟨a, ha, h⟩ := Option.bind_eq_some_iff.1 h
  have hw : a.Wellformed :=
    Assembly.wellformed_run (a := .value []) (by simp [Assembly.Wellformed])
      (Scan.flat_lexemes hls) ha
  cases a with
  | done k => cases h; exact hw
  | _ => cases h

theorem Schema.wellformed_of_regionValue? {Γ : Schema} {bytes : ByteArray} {j : Json}
    (h : Γ.regionValue? bytes = some j) : j.Wellformed := by
  simp only [Schema.regionValue?] at h
  split at h
  · cases h; trivial
  · exact Json.wellformed_of_ofBytes? h

end DocPointer
