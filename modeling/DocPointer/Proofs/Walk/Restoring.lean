/-
  Putting back what was found.

  A slot takes a value of its own type as it is, so assigning what a walk has found, at the
  pointer of the walk, changes nothing at the end.  On the way only a region changes that the
  walk has gone through: it is written anew, for the value that it spells
  (`Changed.alike`, by induction on the changed path).

  * `assign_found`: calls.  The region spells the same value if it is read as what was
    written, which not every double is: `respelled_by_assign`.
-/
import DocPointer.Proofs.Walk.Putting

namespace DocPointer

/-- Values that are alike but for bytes that cannot be related are the same. -/
theorem Val.Alike.eq {R : ByteArray → ByteArray → Prop} {v w : Val} (h : v.Alike R w)
    (hR : ∀ b b', ¬R b b') : w = v := by
  induction h with
  | refl => rfl
  | raw h => exact absurd h (hR _ _)
  | ptr _ ih | box _ ih | held _ ih => rw [ih]
  | item hi _ ih | arrayItem hi _ ih | field hi _ ih => rw [ih, set_of_getElem? hi]
  | entry hk _ ih => rw [ih, Entries.set_of_get? hk]

namespace Schema

open Samples

variable {Γ : Schema} {ts : List Token} {v w x : Val} {doc : Val} {p : Pointer}
  {F : Val → Val → Prop} {R : ByteArray → ByteArray → Prop}

/-- Where at the end of a changed path at most the bytes of a region are others, they are in the
    whole, or those of a region that the path goes through. -/
theorem Changed.alike (hΓ : Γ.Plain) (h : Γ.Changed F ts v w)
    {redirect : Val → Pointer → Except Stop Val} (hx : Γ.resolveTokens redirect ts v = .ok x)
    (hF : ∀ y, F x y → x.Alike R y)
    (hR : ∀ bytes j, Γ.Enters ts v bytes → Json.ofBytes? Γ.reading bytes = some j →
      R bytes j.toBytes) : v.Alike R w := by
  induction h with
  | here h =>
    cases hx
    exact hF _ h
  | under hex _ ih =>
    obtain ⟨c, hc, hx⟩ := (resolveTokens_cons_ok hΓ).1 hx
    obtain rfl := hex.part_eq hc
    refine hex.alike ⟨c, hc⟩ (fun bytes j hb => hR bytes j (.here hb)) ?_
    exact ih hx fun bytes j hb => hR bytes j (.later hc hb)

/-- A container that is put where it was found changes at most how regions are written. -/
theorem alike_put (hΓ : Γ.Plain) (hnames : (Members.names Γ.records).Nodup)
    {redirect : Val → Pointer → Except Stop Val} {us : List Token} (hus : us ≠ [])
    (hv : Γ.resolveTokens redirect ts doc = .ok v) (ho : Γ.opened v = .ok w)
    (hR : ∀ bytes j, Γ.Enters (ts ++ us) doc bytes → Json.ofBytes? Γ.reading bytes = some j →
      R bytes j.toBytes) : doc.Alike R (Γ.put ts doc (v.enclose w)) := by
  have hfit := fits_enclose ho (.refl w)
  refine (put_spec hΓ hnames hv hfit).2.1.alike hΓ hv ?_ fun bytes j hb => hR bytes j (hb.append us)
  rintro y ⟨-, rfl⟩
  exact alike_enclose ho fun bytes j hb =>
    hR bytes j (enters_of_resolveTokens hΓ hv (enters_of_raw hus hb))

/-- **Putting back what was found changes nothing.**  The assign works, and at most a region
    that the walk has gone through has other bytes: those that are written for the value that
    it spells, which spell the same value if they are read as what was written. -/
theorem assign_found (hΓ : Γ.Plain) (hnames : (Members.names Γ.records).Nodup)
    (hp : p.validate = .ok ()) (hx : Γ.Finds doc p x) :
    ∃ doc', Γ.assign doc p x = (.ok (), doc') ∧
      doc.Alike (fun b b' => Γ.Enters p.tokens doc b ∧ Γ.Respells b b' ∧
        (Γ.Rereads b' → Γ.SameSpelled b b')) doc' ∧
      ((∀ b, ¬Γ.Enters p.tokens doc b) → doc' = doc) := by
  rw [finds_iff, seek_eq hp] at hx
  obtain ⟨doc', -, hchanged, hassign, -⟩ := resolveTokens_changed hΓ hnames hx (.refl x)
  have hput : Γ.assignTokens (Γ.place Γ.redirects) [] x x = (.ok (), x) :=
    assignTokens_nil_ok.2 (store_same rfl)
  have halike : doc.Alike (fun b b' => Γ.Enters p.tokens doc b ∧ Γ.Respells b b' ∧
      (Γ.Rereads b' → Γ.SameSpelled b b')) doc' := by
    refine hchanged.alike hΓ hx ?_ ?_
    · rintro y ⟨-, rfl⟩
      exact .refl _
    · intro bytes j hb hj
      exact ⟨hb, ⟨j, hj, rfl⟩, fun h => ⟨j, hj, h j (Json.wellformed_of_ofBytes? hj) rfl⟩⟩
  refine ⟨doc', ?_, halike, ?_⟩
  · have hrun := hassign _ _ _ hput
    rw [List.append_nil] at hrun
    exact assign_ok_iff.2 ⟨hp, hrun⟩
  · intro hnone
    exact halike.eq fun b b' h => hnone b h.1

/-- A port is put back in the notes of a job, which are written anew, and a limit, on the way to
    which there are no notes. -/
theorem busyJob_restored :
    (∃ x doc', jobs.Finds busyJob ⟨"/notes/ports/0"⟩ x ∧
      jobs.assign busyJob ⟨"/notes/ports/0"⟩ x = (.ok (), doc') ∧
      busyJob.Alike jobs.SameSpelled doc') ∧
    ∃ x, jobs.Finds busyJob ⟨"/cpu"⟩ x ∧ jobs.assign busyJob ⟨"/cpu"⟩ x = (.ok (), busyJob) := by
  have hnames : (Members.names jobs.records).Nodup := by decide +kernel
  have hport : (jobs.seek busyJob ⟨"/notes/ports/0"⟩).isOk = true := by decide +kernel
  have hlimit : (jobs.seek busyJob ⟨"/cpu"⟩).isOk = true := by decide +kernel
  constructor
  · obtain ⟨x, hx⟩ := finds_of_isOk hport
    obtain ⟨doc', hdoc, halike, -⟩ := assign_found plain_jobs hnames rfl hx
    refine ⟨x, doc', hx, hdoc, halike.mono ?_⟩
    intro b b' h
    exact h.2.2 ((faithful_of_exact rfl).rereads b')
  · obtain ⟨x, hx⟩ := finds_of_isOk hlimit
    obtain ⟨doc', hdoc, -, hsame⟩ := assign_found plain_jobs hnames rfl hx
    have htokens : Pointer.tokens ⟨"/cpu"⟩ = [⟨"cpu"⟩] := by decide
    have hnone (b : ByteArray) : ¬jobs.Enters (Pointer.tokens ⟨"/cpu"⟩) busyJob b := by
      rw [htokens]
      rintro (hb | ⟨-, hb⟩) <;> cases hb
    exact ⟨x, hx, hsame hnone ▸ hdoc⟩

/-- A double that the program has read may be written such that it reads another, although it
    is only put back. -/
theorem respelled_by_assign :
    let Γ := Command.noRecords Command.reading
    let doc := Command.region "\x7b\"a\":5e32\x7d"
    ∃ x doc', Γ.Finds doc ⟨"/a"⟩ x ∧ Γ.assign doc ⟨"/a"⟩ x = (.ok (), doc') ∧
      ¬doc.Alike Γ.SameSpelled doc' := by
  intro Γ doc
  have hbefore : (Γ.opened doc).toOption.map (·.asJson.text) =
      some "\x7b\"a\":5.0000000000000004e+32\x7d" := by decide +kernel
  have hafter : (Γ.seek doc ⟨"/a"⟩).toOption.map (fun x =>
      ((Γ.assign doc ⟨"/a"⟩ x).1.isOk,
        (Γ.opened (Γ.assign doc ⟨"/a"⟩ x).2).toOption.map (·.asJson.text))) =
      some (true, some "\x7b\"a\":5e+32\x7d") := by decide +kernel
  cases hx : Γ.seek doc ⟨"/a"⟩ with
  | error s =>
    rw [hx] at hafter
    cases hafter
  | ok x =>
    rw [hx] at hafter
    obtain ⟨hok, htext⟩ := Prod.mk.inj (Option.some.inj hafter)
    obtain ⟨doc', hdoc⟩ := Attempt.done_of_isOk hok
    rw [hdoc] at htext
    refine ⟨x, doc', hx, hdoc, ?_⟩
    intro h
    have hsame : Γ.opened doc = Γ.opened doc' := opened_of_sameSpelled h
    rw [hsame, htext] at hbefore
    simp at hbefore

end Schema

end DocPointer
