/-
  Assigns to separate slots commute.

  Where a walk finds something, an assign puts there what it stores (`assign_found_iff`), and
  at a pointer whose walk parts from that one it stores afterwards what it would have stored
  before (`assign_of_diverge`).  The slots are independent, so it does not matter which of
  two assigns comes first.

  * `assign_comm`: calls.  The regions that the walks go through, also those that both go
    through, have the same bytes in the end, if they are read as what was written.
-/
import DocPointer.Proofs.Walk.Putting

namespace DocPointer.Schema

open Samples

variable {Γ : Schema} {ts us : List Token} {doc doc' doc₁ doc₂ v w x x' y y' : Val}
  {p q : Pointer}

/-- Walks part from each other. -/
theorem Diverge.symm (hΓ : Γ.Plain) (h : Γ.Diverge ts us v) : Γ.Diverge us ts v := by
  induction ts generalizing us v with
  | nil => exact h.elim
  | cons t ts ih =>
    cases us with
    | nil => exact h.elim
    | cons u us =>
      obtain ⟨w, ho, hne | ⟨ha, c, hc, hd⟩⟩ := diverge_cons.1 h
      · exact diverge_cons.2 ⟨w, ho, .inl (Ne.symm hne)⟩
      · exact diverge_cons.2 ⟨w, ho, .inr ⟨ha.symm, c, selectBare_of_address hΓ ha hc, ih hd⟩⟩

section
variable (hΓ : Γ.Plain) (hnames : (Members.names Γ.records).Nodup)
include hΓ hnames

/-- Where a walk finds something, an assign puts there what it stores in its place. -/
theorem assign_found_iff (hv : v.Proper) (hx : Γ.Finds doc p x) :
    Γ.assign doc p v = (.ok (), doc') ↔ p.validate = .ok () ∧
      ∃ x', Γ.store x v = (.ok (), x') ∧ x.Fits x' ∧ doc' = Γ.put p.tokens doc x' := by
  rw [assign_ok_iff]
  refine and_congr_right fun hp => ?_
  rw [finds_iff, seek_eq hp] at hx
  constructor
  · intro h
    rw [← List.append_nil p.tokens] at h
    obtain ⟨x', hstore, hfit, hdoc⟩ := assignTokens_put hΓ hnames hv hx h
    exact ⟨x', assignTokens_nil_ok.1 hstore, hfit, hdoc⟩
  · rintro ⟨x', hstore, hfit, rfl⟩
    have h := (put_spec hΓ hnames hx hfit).2.2.1 (Γ.place Γ.redirects) [] v
      (assignTokens_nil_ok.2 hstore)
    rw [List.append_nil] at h
    exact h

/-- An assign at a pointer whose walk parts from another one, after a change there. -/
theorem assign_of_diverge (hd : Γ.Diverge p.tokens q.tokens doc) (hp : p.validate = .ok ())
    (hx : Γ.Finds doc p x) (hfit : x.Fits x')
    (hlegible : ∀ bytes, Γ.Enters p.tokens (Γ.put p.tokens doc x') bytes → Γ.Rereads bytes)
    (hq : q.validate = .ok ()) (hy : Γ.Finds doc q y) (hw : w.Proper)
    (hstore : Γ.store y w = (.ok (), y')) (hfit' : y.Fits y') :
    Γ.assign (Γ.put p.tokens doc x') q w =
      (.ok (), Γ.put q.tokens (Γ.put p.tokens doc x') y') := by
  rw [finds_iff, seek_eq hp] at hx
  have hchanged := (put_spec hΓ hnames hx hfit).2.1
  have hother : Γ.Finds (Γ.put p.tokens doc x') q y := by
    rw [finds_iff, seek_eq hq] at hy ⊢
    rw [hchanged.resolve_of_diverge hΓ (fun _ => hlegible) hd (.inl ⟨x, hx⟩), hy]
  exact (assign_found_iff hΓ hnames hw hother).2 ⟨hq, y', hstore, hfit', rfl⟩

/-- **Assigns to separate slots commute.**  If two pointers find something, their walks part at
    some container, and an assign at each of them works, then each of them works after the other,
    and both orders leave the same document.  The text that a region on the way has got is to
    be read as what it was written for. -/
theorem assign_comm (hv : v.Proper) (hw : w.Proper) (hx : Γ.Finds doc p x) (hy : Γ.Finds doc q y)
    (hd : Γ.Diverge p.tokens q.tokens doc) (h₁ : Γ.assign doc p v = (.ok (), doc₁))
    (h₂ : Γ.assign doc q w = (.ok (), doc₂))
    (hlegible₁ : ∀ bytes, Γ.Enters p.tokens doc₁ bytes → Γ.Rereads bytes)
    (hlegible₂ : ∀ bytes, Γ.Enters q.tokens doc₂ bytes → Γ.Rereads bytes) :
    ∃ z, Γ.assign doc₁ q w = (.ok (), z) ∧ Γ.assign doc₂ p v = (.ok (), z) := by
  obtain ⟨hp, x', hstore, hfit, rfl⟩ := (assign_found_iff hΓ hnames hv hx).1 h₁
  obtain ⟨hq, y', hstore', hfit', rfl⟩ := (assign_found_iff hΓ hnames hw hy).1 h₂
  have hsecond := assign_of_diverge hΓ hnames hd hp hx hfit hlegible₁ hq hy hw hstore' hfit'
  have hsecond' := assign_of_diverge hΓ hnames (hd.symm hΓ) hq hy hfit' hlegible₂ hp hx hv hstore
    hfit
  rw [finds_iff, seek_eq hp] at hx
  rw [finds_iff, seek_eq hq] at hy
  have hcomm := put_comm hΓ hnames hd hx hy hfit hfit' hlegible₁ hlegible₂
  exact ⟨_, hsecond, hcomm ▸ hsecond'⟩

end

/-- A port in the notes of a job, and a limit, are changed in either order. -/
theorem busyJob_commutes : ∃ doc₁ doc₂ z,
    jobs.assign busyJob ⟨"/notes/ports/0"⟩ (.string "https") = (.ok (), doc₁) ∧
      jobs.assign busyJob ⟨"/cpu"⟩ (.int .i64 8) = (.ok (), doc₂) ∧
      jobs.assign doc₁ ⟨"/cpu"⟩ (.int .i64 8) = (.ok (), z) ∧
      jobs.assign doc₂ ⟨"/notes/ports/0"⟩ (.string "https") = (.ok (), z) := by
  have hnames : (Members.names jobs.records).Nodup := by decide +kernel
  have hport : (jobs.seek busyJob ⟨"/notes/ports/0"⟩).isOk = true := by decide +kernel
  have hlimit : (jobs.seek busyJob ⟨"/cpu"⟩).isOk = true := by decide +kernel
  have hok₁ : (jobs.assign busyJob ⟨"/notes/ports/0"⟩ (.string "https")).1.isOk = true := by
    decide +kernel
  have hok₂ : (jobs.assign busyJob ⟨"/cpu"⟩ (.int .i64 8)).1.isOk = true := by decide +kernel
  have hd : jobs.Diverge (Pointer.tokens ⟨"/notes/ports/0"⟩) (Pointer.tokens ⟨"/cpu"⟩)
      busyJob := by decide +kernel
  have hrereads (bytes : ByteArray) : jobs.Rereads bytes := (faithful_of_exact rfl).rereads bytes
  obtain ⟨x, hx⟩ := finds_of_isOk hport
  obtain ⟨y, hy⟩ := finds_of_isOk hlimit
  obtain ⟨doc₁, h₁⟩ := Attempt.done_of_isOk hok₁
  obtain ⟨doc₂, h₂⟩ := Attempt.done_of_isOk hok₂
  obtain ⟨z, hz, hz'⟩ := assign_comm plain_jobs hnames (v := .string "https") trivial
    (w := .int .i64 8) trivial hx hy hd h₁ h₂ (fun bytes _ => hrereads bytes)
    fun bytes _ => hrereads bytes
  exact ⟨doc₁, doc₂, z, h₁, h₂, hz, hz'⟩

end DocPointer.Schema
