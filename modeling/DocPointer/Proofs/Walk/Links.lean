/-
  Which link of a chain of pointers a destination receives.

  A value that is a pointer is offered to a destination link by link, the outermost first.
  What the destination makes of a link is told by the type of the link (`Schema.taking`): the
  level of the destination that has this type takes it as it is, and else the value behind all
  levels adopts it, as JSON, in a region or in a holder, or refuses it.  So the first link of
  the type of the destination (`Val.First`) is received unless a link around it is adopted
  before (`Schema.Intact`).

  * `store_eq_taking`: what a destination makes of a pointer.
  * `deliver_first`: by induction on the chain, what it makes of a chain.
  * `resolve_first`: calls.
-/
import DocPointer.Proofs.Walk.Delivery

namespace DocPointer

/-! ## Links -/

namespace Val

/-- `v` is `u` behind a pointer, or in a holder. -/
def Wraps (v u : Val) : Prop := v = .ptr u ∨ v = .box u ∨ v = .held u

/-- The first value is a chain of pointers, the second its outermost link of type `t`. -/
inductive First (t : Ty) : Val → Val → Prop where
  | here {v : Val} (h : v.typeOf = t) : First t v v
  | next {u v w : Val} (hv : v.Wraps u) (hne : v.typeOf ≠ t) (h : First t u w) : First t v w

variable {u v w : Val} {t : Ty}

theorem Wraps.sizeOf_lt (h : v.Wraps u) : sizeOf u < sizeOf v := by
  rcases h with rfl | rfl | rfl <;> simp

theorem Wraps.ne_coded (h : v.Wraps u) : v.typeOf ≠ .json ∧ v.typeOf ≠ .raw := by
  rcases h with rfl | rfl | rfl <;> exact ⟨nofun, nofun⟩

theorem First.typeOf_eq (h : v.First t w) : w.typeOf = t := by
  induction h with
  | here h => exact h
  | next _ _ _ ih => exact ih

theorem First.sizeOf_le (h : v.First t w) : sizeOf w ≤ sizeOf v := by
  induction h with
  | here => exact Nat.le_refl _
  | next hv _ _ ih => exact Nat.le_trans ih (Nat.le_of_lt hv.sizeOf_lt)

theorem First.sizeOf_lt (h : v.First t w) (hne : v.typeOf ≠ t) : sizeOf w < sizeOf v := by
  cases h with
  | here h => exact absurd h hne
  | next hv _ h => exact Nat.lt_of_le_of_lt h.sizeOf_le hv.sizeOf_lt

/-- No level of the type of a link has the type of a chain around it, if it is not for a
    holder. -/
theorem First.misses (h : v.First t w) (hne : v.typeOf ≠ t) (ht : t.pointee ≠ .holder) :
    t.Misses v.typeOf := by
  induction h with
  | here h => exact absurd h hne
  | @next u v w hv _ h ih =>
    by_cases hu : u.typeOf = t
    · subst hu
      rcases hv with rfl | rfl | rfl
      · exact .inr (Nat.lt_succ_self _)
      · exact .inr (Nat.lt_succ_self _)
      · exact .inl ht
    · rcases hv with rfl | rfl | rfl
      · exact (ih hu).imp_right Nat.lt_succ_of_lt
      · exact (ih hu).imp_right Nat.lt_succ_of_lt
      · exact .inl ht

end Val

theorem Ty.Misses.ne_pointee {s t : Ty} (h : s.Misses t) : t ≠ s.pointee := by
  induction s with
  | opt s ih | box s ih => exact ih (h.inner rfl rfl)
  | _ => exact h.ne

namespace Schema

open Samples

/-! ## What a destination makes of a link -/

/-- The slot takes a value, or refuses one and holds `slot` as before. -/
def Storing.of (slot : Val) : Except Refusal Val → Storing
  | .ok v => .done v
  | .error e => .refuse e slot

section
variable (Γ : Schema)

/-- What is behind all levels of a destination.  Behind a level that is nil it is new. -/
def bottom : Val → Val
  | .nil t => Γ.zero t.pointee
  | .ptr v | .box v => bottom v
  | v => v

/-- What a slot that is no pointer makes of a value. -/
def intake (slot x : Val) : Except Refusal Val :=
  match Γ.adopts? slot.typeOf x, Γ.settle slot x with
  | some v, _ => .ok v
  | none, (.ok _, v) => .ok v
  | none, (.error e, _) => .error e

/-- What the levels of a type make of a value that is not JSON: the level of its type takes
    it, or `slot`, behind all of them. -/
def taking (slot x : Val) : Ty → Except Refusal Val
  | .opt t => if x.typeOf = .opt t then .ok x else (taking slot x t).map .ptr
  | .box t => if x.typeOf = .box t then .ok x else (taking slot x t).map .box
  | _ => Γ.intake slot x

end

variable {Γ : Schema} {doc slot u v w x : Val} {p : Pointer} {t : Ty}

theorem typeOf_bottom (v : Val) : (Γ.bottom v).typeOf = v.typeOf.pointee := by
  induction v using Schema.bottom.induct with
  | case1 t => exact Γ.typeOf_zero _
  | case2 v ih | case3 v ih => exact ih
  | case4 v hnil hptr hbox =>
    cases v with
    | nil t => exact absurd rfl (hnil t)
    | ptr v => exact absurd rfl (hptr v)
    | box v => exact absurd rfl (hbox v)
    | _ => rfl

theorem adopts?_eq_none (h : Γ.adopts? t x = none) : x.typeOf ≠ t := by
  intro ht
  simp [adopts?, ht] at h

theorem offer_eq (hx : x.typeOf ≠ .json ∧ x.typeOf ≠ .raw) (t : Ty) :
    Γ.offer t x = (Γ.adopts? t x).map .ok := by
  unfold offer
  cases Γ.adopts? t x with
  | some v => rfl
  | none =>
    cases x with
    | raw bytes => exact absurd rfl hx.2
    | json j => exact absurd rfl hx.1
    | _ => rfl

theorem settle_eq_intake (ho : Γ.adopts? slot.typeOf x = none) :
    Γ.settle slot x = .of slot (Γ.intake slot x) := by
  simp only [intake, ho]
  rcases hs : Γ.settle slot x with ⟨e | ⟨⟩, v⟩
  · rw [settle_atomic x slot e v hs]
    rfl
  · rfl

theorem taking_of_hops (ht : t.hops = 0) : Γ.taking slot x t = Γ.intake slot x := by
  cases t with
  | opt t | box t => cases ht
  | _ => rfl

/-- What a level adopts is taken. -/
theorem taking_of_adopts? (hs : slot.typeOf = t.pointee) (h : Γ.adopts? t x = some v) :
    Γ.taking slot x t = .ok v := by
  have hintake (hp : t.pointee = t) : Γ.intake slot x = .ok v := by
    simp only [intake, hs, hp, h]
  by_cases hx : x.typeOf = t
  · obtain rfl : x = v := by simpa [adopts?, hx] using h
    cases t with
    | opt t | box t => rw [taking, if_pos hx]
    | _ => exact hintake rfl
  · cases t with
    | json | holder => exact hintake rfl
    | _ => simp [adopts?, hx] at h

theorem fill_eq_taking (hx : x.typeOf ≠ .json ∧ x.typeOf ≠ .raw) (t : Ty) :
    Γ.fill t x = .of (Γ.zero t) (Γ.taking (Γ.zero t.pointee) x t) := by
  fun_induction Γ.fill t x with
  | case1 t v ho =>
    rw [offer_eq hx] at ho
    obtain ⟨u, hu, hv⟩ := Option.map_eq_some_iff.1 ho
    cases hv
    rw [taking_of_adopts? (Γ.typeOf_zero _) hu]
    rfl
  | case2 t e ho =>
    rw [offer_eq hx] at ho
    obtain ⟨u, -, hu⟩ := Option.map_eq_some_iff.1 ho
    cases hu
  | case3 t ho ih =>
    rw [offer_eq hx, Option.map_eq_none_iff] at ho
    rw [ih, taking, if_neg (adopts?_eq_none ho), Ty.pointee]
    cases Γ.taking (Γ.zero t.pointee) x t with
    | ok v => rfl
    | error e => simp [Storing.of, Storing.refuse, Attempt.within, Except.map, cleared, zero]
  | case4 t ho ih =>
    rw [offer_eq hx, Option.map_eq_none_iff] at ho
    rw [ih, taking, if_neg (adopts?_eq_none ho), Ty.pointee]
    cases Γ.taking (Γ.zero t.pointee) x t <;> rfl
  | case5 t hopt hbox ho =>
    rw [offer_eq hx, Option.map_eq_none_iff] at ho
    have hops : t.hops = 0 := by
      cases t with
      | opt s => exact absurd rfl (hopt s)
      | box s => exact absurd rfl (hbox s)
      | _ => rfl
    rw [taking_of_hops hops, Ty.pointee_of_hops hops, settle_eq_intake]
    rwa [typeOf_zero]

/-- **A destination takes a pointer, or refuses it, as the type of the pointer says.** -/
theorem store_eq_taking (hx : x.typeOf ≠ .json ∧ x.typeOf ≠ .raw) (slot : Val) :
    Γ.store slot x = .of slot (Γ.taking (Γ.bottom slot) x slot.typeOf) := by
  fun_induction Γ.store slot x with
  | case1 slot v ho =>
    rw [offer_eq hx] at ho
    obtain ⟨u, hu, hv⟩ := Option.map_eq_some_iff.1 ho
    cases hv
    rw [taking_of_adopts? (typeOf_bottom slot) hu]
    rfl
  | case2 slot e ho =>
    rw [offer_eq hx] at ho
    obtain ⟨u, -, hu⟩ := Option.map_eq_some_iff.1 ho
    cases hu
  | case3 t ho =>
    rw [offer_eq hx, Option.map_eq_none_iff] at ho
    have hne : x.typeOf ≠ .opt t := adopts?_eq_none ho
    rw [fill_eq_taking hx t, bottom, Val.typeOf, taking, if_neg hne]
    cases Γ.taking (Γ.zero t.pointee) x t with
    | ok v => rfl
    | error e => simp [Storing.of, Storing.refuse, Attempt.within, Except.map, cleared]
  | case4 w ho ih =>
    rw [offer_eq hx, Option.map_eq_none_iff] at ho
    have hne : x.typeOf ≠ .opt w.typeOf := adopts?_eq_none ho
    rw [ih, bottom, Val.typeOf, taking, if_neg hne]
    cases Γ.taking (Γ.bottom w) x w.typeOf <;> rfl
  | case5 w ho ih =>
    rw [offer_eq hx, Option.map_eq_none_iff] at ho
    have hne : x.typeOf ≠ .box w.typeOf := adopts?_eq_none ho
    rw [ih, bottom, Val.typeOf, taking, if_neg hne]
    cases Γ.taking (Γ.bottom w) x w.typeOf <;> rfl
  | case6 slot hnil hptr hbox ho =>
    rw [offer_eq hx, Option.map_eq_none_iff] at ho
    have hbottom : Γ.bottom slot = slot := by rw [bottom] <;> assumption
    have hops : slot.typeOf.hops = 0 := by
      cases slot with
      | nil t => exact absurd rfl (hnil t)
      | ptr v => exact absurd rfl (hptr v)
      | box v => exact absurd rfl (hbox v)
      | _ => rfl
    rw [taking_of_hops hops, hbottom, settle_eq_intake ho]

/-! ## What a destination makes of a chain -/

theorem encode_around (t : Ty) (x : Val) : Γ.encode (t.around x) = Γ.encode x := by
  induction t with
  | opt t ih | box t ih => rw [Ty.around, encode, ih]
  | _ => rfl

/-- A chain and its links have one JSON form. -/
theorem encode_first (h : v.First t w) : Γ.encode v = Γ.encode w := by
  induction h with
  | here => rfl
  | next hv _ _ ih => rcases hv with rfl | rfl | rfl <;> rw [encode, ih]

/-- A pointer to JSON has a JSON form. -/
theorem exists_encode (hw : w.typeOf.pointee = .json) : ∃ j, Γ.encode w = some j := by
  induction w using Val.target.induct with
  | case1 w ih | case2 w ih =>
    rw [encode]
    exact ih hw
  | case3 w ih => cases hw
  | case4 w hptr hbox _ =>
    cases w with
    | json j => exact ⟨j, rfl⟩
    | nil t => exact ⟨.null, rfl⟩
    | ptr w => exact absurd rfl (hptr w)
    | box w => exact absurd rfl (hbox w)
    | _ => cases hw

/-- If no level is of its type, a value is for the slot behind all of them. -/
theorem taking_of_misses (h : t.Misses x.typeOf) :
    Γ.taking slot x t = (Γ.intake slot x).map t.around := by
  induction t with
  | opt t ih | box t ih =>
    rw [taking, if_neg h.ne, ih (h.inner rfl rfl)]
    cases Γ.intake slot x <;> rfl
  | _ =>
    rw [taking_of_hops rfl]
    cases Γ.intake slot x <;> rfl

/-- A value is stored as it is, or in a new holder, where a holder is behind the levels. -/
theorem taking_holder (hs : slot.typeOf = .holder) (t : Ty) :
    ∃ y, Γ.taking slot x t = .ok y ∧ sizeOf x ≤ sizeOf y := by
  have hintake : ∃ y, Γ.intake slot x = .ok y ∧ sizeOf x ≤ sizeOf y := by
    simp only [intake, adopts?, hs]
    by_cases hx : x.typeOf = .holder
    · exact ⟨x, by simp only [hx, if_true], Nat.le_refl _⟩
    · exact ⟨.held x, by simp only [hx, if_false], by simp⟩
  induction t with
  | opt t ih | box t ih =>
    rw [taking]
    split
    · exact ⟨x, rfl, Nat.le_refl _⟩
    · obtain ⟨y, hy, hle⟩ := ih
      refine ⟨_, by rw [hy]; rfl, ?_⟩
      simp only [Val.ptr.sizeOf_spec, Val.box.sizeOf_spec]
      omega
  | _ => exact hintake

/-- A chain `v` reaches a destination at its link `w`: no link around this is adopted before,
    or what is adopted looks the same. -/
def Intact (Γ : Schema) (dst v w : Val) : Prop :=
  v.typeOf = w.typeOf ∨
    match w.typeOf.pointee with
    | .json => ∃ j, w = w.typeOf.around (.json j)
    | .raw => ∃ j, w = w.typeOf.around (.raw j.toBytes) ∧ Γ.regionValue? j.toBytes = some j
    | .holder => False
    -- a record may present itself as a pointer that cannot be filled
    | _ => Γ.node (Γ.bottom dst) ≠ .sealed false

/-- What is no JSON is adopted as JSON by its JSON form. -/
theorem intake_json {j : Json} (hs : slot.typeOf = .json) (hx : x.typeOf ≠ .json)
    (hj : Γ.encode x = some j) : Γ.intake slot x = .ok (.json j) := by
  have ho : Γ.adopts? slot.typeOf x = some (.json j) := by
    simp only [adopts?, hs, hx, if_false, hj, Option.map_some]
  simp only [intake, ho]

/-- A region takes the encoding of what is no region. -/
theorem intake_raw (hs : slot.typeOf = .raw) (hx : x.typeOf ≠ .raw) :
    Γ.intake slot x = match Γ.encode x with
      | some j => .ok (.raw j.toBytes)
      | none => .error ⟨.codec, .raw⟩ := by
  have ho : Γ.adopts? slot.typeOf x = none := by simp only [adopts?, hs, hx, if_false]
  cases slot with
  | raw bytes =>
    simp only [intake, ho, settle, settleBare, node]
    cases Γ.encode x <;> rfl
  | _ => cases hs

/-- Other slots refuse values of other types. -/
theorem intake_other (hs : slot.typeOf ≠ .json ∧ slot.typeOf ≠ .raw ∧ slot.typeOf ≠ .holder)
    (hx : x.typeOf ≠ slot.typeOf) : ∃ e, Γ.intake slot x = .error e ∧
      (e.fault.isNotAssignable = true ↔ Γ.node slot ≠ .sealed false) := by
  have ho : Γ.adopts? slot.typeOf x = none := by
    simp only [adopts?, hx, if_false]
    split
    · exact absurd ‹_› hs.1
    · exact absurd ‹_› hs.2.2
    · rfl
  have hbare : Γ.settle slot x = Γ.settleBare slot x := by
    rw [settle]
    rintro rfl
    exact hs.1 rfl
  obtain ⟨e, he, hf⟩ : ∃ e, Γ.settleBare slot x = .refuse e slot ∧
      (e.fault.isNotAssignable = true ↔ Γ.node slot ≠ .sealed false) := by
    rw [settleBare]
    split
    · next hn => exact absurd (congrArg Val.typeOf (eq_of_node_raw hn)) hs.2.1
    · next hn => exact ⟨_, rfl, by simp [Fault.isNotAssignable, hn]⟩
    · next hn => exact ⟨_, rfl, by simpa [Fault.isNotAssignable] using hn⟩
  exact ⟨e, by simp only [intake, ho, hbare, he, Storing.refuse], hf⟩

/-- A link that was adopted by its JSON form is the link itself if this is JSON. -/
theorem around_json_eq {j : Json} (hj : Γ.encode w = some j) (t : Ty) :
    t.around (.json j) = w ↔ ∃ i, w = t.around (.json i) := by
  constructor
  · rintro rfl
    exact ⟨j, rfl⟩
  · rintro ⟨i, rfl⟩
    rw [encode_around, encode] at hj
    cases hj
    rfl

/-- A link that was encoded in a region is the link itself if this is the region that it is
    encoded as. -/
theorem around_raw_eq {j : Json} (hj : Γ.encode w = some j) (t : Ty) :
    t.around (.raw j.toBytes) = w ↔
      ∃ i, w = t.around (.raw i.toBytes) ∧ Γ.regionValue? i.toBytes = some i := by
  constructor
  · rintro rfl
    rw [encode_around, encode] at hj
    exact ⟨j, rfl, hj⟩
  · rintro ⟨i, rfl, hread⟩
    rw [encode_around, encode, hread] at hj
    cases hj
    rfl

/-- A link around the one of the type of the destination is passed over, or it is taken or
    refused for good. -/
theorem taking_first {dst : Val} (h : v.First dst.typeOf w) (hne : v.typeOf ≠ dst.typeOf)
    (hv : v.typeOf ≠ .json ∧ v.typeOf ≠ .raw) :
    (Γ.Intact dst v w ∧ ∃ e, Γ.taking (Γ.bottom dst) v dst.typeOf = .error e ∧
        e.fault.isNotAssignable = true) ∨
      ((Γ.Intact dst v w ↔ Γ.taking (Γ.bottom dst) v dst.typeOf = .ok w) ∧
        ∀ e, Γ.taking (Γ.bottom dst) v dst.typeOf = .error e →
          e.fault.isNotAssignable = false) := by
  have hw : w.typeOf = dst.typeOf := h.typeOf_eq
  have hvw : v.typeOf ≠ w.typeOf := hw ▸ hne
  have hb : (Γ.bottom dst).typeOf = w.typeOf.pointee := hw ▸ Γ.typeOf_bottom dst
  have hform : Γ.encode v = Γ.encode w := encode_first h
  have hmisses (hp : w.typeOf.pointee ≠ .holder) : w.typeOf.Misses v.typeOf := by
    rw [hw] at hp ⊢
    exact h.misses hne hp
  unfold Intact
  rw [← hw]
  simp only [hvw, false_or]
  split
  · next hp =>
    obtain ⟨j, hj⟩ := exists_encode (Γ := Γ) hp
    rw [taking_of_misses (hmisses (hp ▸ nofun)), intake_json (hb.trans hp) hv.1 (hform.trans hj)]
    refine .inr ⟨?_, nofun⟩
    rw [← around_json_eq hj, Except.map, Except.ok.injEq]
  · next hp =>
    rw [taking_of_misses (hmisses (hp ▸ nofun)), intake_raw (hb.trans hp) hv.2, hform]
    cases hj : Γ.encode w with
    | some j =>
      refine .inr ⟨?_, nofun⟩
      rw [← around_raw_eq hj]
      exact Except.ok.injEq .. ▸ Iff.rfl
    | none =>
      -- a region that spells a value would have encoded the link
      refine .inr ⟨⟨?_, nofun⟩, fun e he => by cases he; rfl⟩
      rintro ⟨j, hw, hread⟩
      rw [hw, encode_around, encode, hread] at hj
      cases hj
  · next hp =>
    obtain ⟨y, hy, hle⟩ := taking_holder (x := v) (hb.trans hp) w.typeOf
    rw [hy]
    refine .inr ⟨⟨nofun, ?_⟩, nofun⟩
    rintro hi
    cases hi
    exact absurd (h.sizeOf_lt hne) (Nat.not_lt_of_le hle)
  · next hj hr hh =>
    have hs : (Γ.bottom dst).typeOf ≠ .json ∧ (Γ.bottom dst).typeOf ≠ .raw ∧
        (Γ.bottom dst).typeOf ≠ .holder := hb ▸ ⟨hj, hr, hh⟩
    obtain ⟨e, he, hf⟩ := intake_other hs (hb ▸ (hmisses hh).ne_pointee)
    rw [taking_of_misses (hmisses hh), he, ← hf]
    cases hassignable : e.fault.isNotAssignable with
    | true => exact .inl ⟨rfl, e, rfl, hassignable⟩
    | false => exact .inr ⟨⟨nofun, nofun⟩, fun e' he' => by cases he'; exact hassignable⟩

/-- What is not passed over settles the delivery. -/
theorem deliver_settled {dst : Val} {out : Except Refusal Val} (h : Γ.store dst x = .of dst out)
    (hout : ∀ e, out = .error e → e.fault.isNotAssignable = false) :
    Γ.deliver dst x = .of dst out := by
  cases out with
  | ok y => exact deliver_of_store h
  | error e =>
    rw [deliver.eq_def, h]
    simp only [Storing.of, Storing.refuse, hout e rfl]
    rfl

/-- **A chain is delivered at its first link of the type of the destination** if this is
    intact, and else as the outermost link of the chain. -/
theorem deliver_first {dst : Val} (h : v.First dst.typeOf w) :
    (Γ.Intact dst v w → Γ.deliver dst v = .done w) ∧
    (¬ Γ.Intact dst v w → Γ.taking (Γ.bottom dst) v dst.typeOf ≠ .ok w ∧
      Γ.deliver dst v = .of dst (Γ.taking (Γ.bottom dst) v dst.typeOf)) := by
  generalize ht : dst.typeOf = t at h
  induction h with
  | here h =>
    exact ⟨fun _ => deliver_of_store (store_same (h.trans ht.symm)), fun hn => absurd (.inl rfl) hn⟩
  | @next u v w hv hne hu ih =>
    subst ht
    have hstore : Γ.store dst v = .of dst (Γ.taking (Γ.bottom dst) v dst.typeOf) :=
      store_eq_taking hv.ne_coded dst
    rcases taking_first (Γ := Γ) (hu.next hv hne) hne hv.ne_coded with
      ⟨hintact, e, he, hf⟩ | ⟨hiff, hsettled⟩
    · -- what the outermost link leads to is as intact as the link
      have hinner : Γ.Intact dst u w := .inr (hintact.resolve_left (hu.typeOf_eq ▸ hne))
      rw [he] at hstore
      rw [deliver_inner hv ⟨e, hstore, hf⟩]
      exact ⟨fun _ => ih.1 hinner, fun hn => absurd hintact hn⟩
    · rw [deliver_settled hstore hsettled]
      exact ⟨fun hi => by rw [hiff.1 hi]; rfl, fun hn => ⟨fun ht => hn (hiff.2 ht), rfl⟩⟩

/-! ## Calls -/

/-- **A destination receives the link of its type if this is intact**, and otherwise what its
    levels make of the whole chain, which is another value, or a refusal. -/
theorem resolve_first {dst : Val} (hp : p.validate = .ok ()) (h : Γ.Finds doc p v)
    (hw : v.First dst.typeOf w) :
    (Γ.resolve doc dst p = (.ok (), w) ↔ Γ.Intact dst v w) ∧
    (¬ Γ.Intact dst v w → Γ.resolve doc dst p =
      match Γ.taking (Γ.bottom dst) v dst.typeOf with
      | .ok x => (.ok (), x)
      | .error e => (.error ⟨.resolving, p, e.stop .root⟩, dst)) := by
  obtain ⟨hintact, hspoilt⟩ := deliver_first (Γ := Γ) hw
  have hcall (hn : ¬ Γ.Intact dst v w) : Γ.resolve doc dst p =
      match Γ.taking (Γ.bottom dst) v dst.typeOf with
      | .ok x => (.ok (), x)
      | .error e => (.error ⟨.resolving, p, e.stop .root⟩, dst) := by
    rw [resolve_eq hp, finds_iff.1 h]
    dsimp only
    rw [(hspoilt hn).2]
    cases Γ.taking (Γ.bottom dst) v dst.typeOf <;> rfl
  refine ⟨⟨fun hr => ?_, fun hi => resolve_of_finds hp h (hintact hi)⟩, hcall⟩
  by_contra hn
  rw [hcall hn] at hr
  have hother := (hspoilt hn).1
  split at hr
  · next ht =>
    cases hr
    exact hother ht
  · cases hr

/-- Pointers that holders lead to, one to a number and one to JSON. -/
theorem link_received :
    let doc := Val.slice .holder [.held (.ptr (.int .i64 7)), .held (.ptr (.json (.str "a")))]
    jobs.resolve doc (.nil i64) ⟨"/0"⟩ = (.ok (), .ptr (.int .i64 7)) ∧
    jobs.resolve doc (.nil .json) ⟨"/1"⟩ = (.ok (), .ptr (.json (.str "a"))) := by
  intro doc
  have hnumber : jobs.Finds doc ⟨"/0"⟩ (.held (.ptr (.int .i64 7))) := by rfl
  have hjson : jobs.Finds doc ⟨"/1"⟩ (.held (.ptr (.json (.str "a")))) := by rfl
  have hnumber' : (Val.held (.ptr (.int .i64 7))).First (Val.nil i64).typeOf (.ptr (.int .i64 7)) :=
    .next (.inr (.inr rfl)) nofun (.here rfl)
  have hjson' : (Val.held (.ptr (.json (.str "a")))).First (Val.nil .json).typeOf
      (.ptr (.json (.str "a"))) := .next (.inr (.inr rfl)) nofun (.here rfl)
  exact ⟨(resolve_first rfl hnumber hnumber').1.2 (.inr nofun),
    (resolve_first rfl hjson hjson').1.2 (.inr ⟨.str "a", rfl⟩)⟩

/-- A destination that is a pointer to a holder receives the holder around the pointer that has
    its type. -/
theorem outer_holder_swallowed :
    let link := Val.ptr (.held (.json (.str "a")))
    let doc := Val.held link
    jobs.Finds doc .root doc ∧ doc.First (Val.nil .holder).typeOf link ∧
      jobs.resolve doc (.nil .holder) .root = (.ok (), .ptr doc) ∧ Val.ptr doc ≠ link := by
  intro link doc
  refine ⟨by rfl, .next (.inr (.inr rfl)) nofun (.here rfl), by rfl, ?_⟩
  simp [doc, link]

end Schema

end DocPointer
