/-
  An assign touches only its own path.

  Two lists of tokens `Diverge` in a value if they lead to one container, through the same
  addresses, and then to different addresses in it.  A change at the end of a list of tokens
  is one exchange under the other (`Changed`), so by induction it leaves alone what the walk
  of a list that diverges from it finds (`Changed.resolve_of_diverge`), and on the way it keeps
  the order of keys (`Changed.keeps`).

  A region that the walk of the change goes through is written anew.  That matters to another
  walk only if it goes on in the same region (`Shares`); then the walks are cut at the region
  (`Changed.cut`), and in the value that it spells there are no regions.  What is read back of
  the region has the numbers that are read where the others were printed (`renumbering`).

  * `finds_of_diverge`: calls.  In `neighbour_respelled` a double is read as another one after
    the entry beside it was assigned, and a region that nests too deep is not read any more.
-/
import DocPointer.Proofs.Walk.Exchange
import DocPointer.Proofs.Walk.Overwriting

namespace DocPointer.Schema

open Samples

section
variable (Γ : Schema)

/-- The walk of a list of tokens goes on in a region with these bytes. -/
inductive Enters : List Token → Val → ByteArray → Prop where
  | here {t : Token} {ts : List Token} {v : Val} {bytes : ByteArray} :
      v.target = .raw bytes → Enters (t :: ts) v bytes
  | later {t : Token} {ts : List Token} {v c : Val} {bytes : ByteArray} :
      Γ.select t v = .ok c → Enters ts c bytes → Enters (t :: ts) v bytes

/-- The walks of two lists of tokens part at a container: they take the same addresses up to
    it, and different ones in it. -/
def Diverge : List Token → List Token → Val → Prop
  | t :: ts, u :: us, v =>
    match Γ.opened v with
    | .error _ => False
    | .ok w =>
      if Γ.addressBare? u w = Γ.addressBare? t w then
        match Γ.selectBare u w with
        | .ok c => Diverge ts us c
        | .error _ => False
      else True
  | _, _, _ => False

instance decidableDiverge : ∀ ts us v, Decidable (Γ.Diverge ts us v)
  | [], _, _ => .isFalse id
  | _ :: _, [], _ => .isFalse id
  | t :: ts, u :: us, v => by
    have (c : Val) := decidableDiverge ts us c
    unfold Diverge
    exact match Γ.opened v with
    | .error _ => .isFalse id
    | .ok w => by
      have : Decidable (match Γ.selectBare u w with
        | .ok c => Γ.Diverge ts us c
        | .error _ => False) := by split <;> infer_instance
      infer_instance

/-- The walks of two lists of tokens take the same addresses up to a region, and both go on
    in it. -/
inductive Shares : List Token → List Token → Val → Prop where
  | here {t u : Token} {ts us : List Token} {v : Val} {bytes : ByteArray} :
      v.target = .raw bytes → Shares (t :: ts) (u :: us) v
  | later {t u : Token} {ts us : List Token} {v w c : Val} :
      Γ.opened v = .ok w → Γ.addressBare? u w = Γ.addressBare? t w → Γ.selectBare u w = .ok c →
        Shares ts us c → Shares (t :: ts) (u :: us) v

open Classical in
/-- The numbers that are read in the regions on the way of the tokens, after a change from `doc`
    to `doc'` at their end, where others were written: the same, if there is no region or if it
    is read as what was written there. -/
noncomputable def renumbering (ts : List Token) (doc doc' : Val) : Number → Number :=
  if (∀ bytes, ¬Γ.Enters ts doc bytes) ∨ ∀ bytes, Γ.Enters ts doc' bytes → Γ.Rereads bytes then id
  else Number.reread Γ.reading.rounding

/-- The keys of what a value is opened as. -/
def keys? (v : Val) : Option (List Key) := (Γ.opened v).toOption.bind Γ.keysBare?

/-- If `v` is an object, so is `w`, with the keys of `v` in their order, and perhaps others. -/
def KeepsKeys (v w : Val) : Prop :=
  ∀ ks, Γ.keys? v = some ks → ∃ ks', Γ.keys? w = some ks' ∧ ks.Sublist ks'

/-- What the walk of `q` finds in `doc` before its end, it finds in `doc'` after a change at `p`,
    with the keys of objects in their order; in a region on the way of `p`, if that can be
    read. -/
def KeepsWay (doc doc' : Val) (p q : Pointer) : Prop :=
  ∀ rs t ts v, q.tokens = rs ++ t :: ts → Γ.Finds doc (.ofTokens rs) v →
    (Γ.Shares p.tokens (rs ++ [t]) doc → ∀ bytes, Γ.Enters p.tokens doc' bytes →
      Γ.Readable bytes) →
      ∃ v', Γ.Finds doc' (.ofTokens rs) v' ∧ Γ.KeepsKeys v v'

/-- The value `w` is `v` with what is at the end of the tokens, found there or made,
    changed by `F`. -/
inductive Changed (F : Val → Val → Prop) : List Token → Val → Val → Prop where
  | here {v w : Val} : F v w → Changed F [] v w
  | under {t : Token} {ts : List Token} {v w d c : Val} :
      Γ.Exchanged t v w d c → Changed F ts d c → Changed F (t :: ts) v w

/-- A change from `x` to `y`, by an assign or a delete, is one from `v` to `w` with the tokens
    in front. -/
def Relays (ts : List Token) (v w x y : Val) : Prop :=
  (∀ r us z, Γ.assignTokens r us x z = (.ok (), y) →
    Γ.assignTokens r (ts ++ us) v z = (.ok (), w)) ∧
  ∀ r us, us ≠ [] → Γ.deleteTokens r us x = (.ok (), y) →
    Γ.deleteTokens r (ts ++ us) v = (.ok (), w)

end

variable {Γ : Schema} {t u : Token} {ts us : List Token} {v w d c x y : Val} {doc doc' : Val}
  {p q : Pointer} {F : Val → Val → Prop}

/-! ## Addresses -/

theorem eq_ok_of_address {ε α : Type} {a b : Except ε α} {z : α} {mk : α → Address}
    (hmk : mk.Injective) (h : b.toOption.map mk = a.toOption.map mk) (hb : b = .ok z) :
    a = .ok z := by
  subst hb
  cases a with
  | error e => cases h
  | ok y => exact congrArg Except.ok (hmk (Option.some.inj h)).symm

theorem selectBare_item_of_address (hΓ : Γ.Plain) {items : List Val} (hv : Γ.items? v = some items)
    (ha : Γ.addressBare? u v = Γ.addressBare? t v) (h : Γ.selectBare u v = .ok x) :
    Γ.selectBare t v = .ok x := by
  obtain ⟨i, hi, hx⟩ := (hΓ.selectBare_item hv).1 h
  obtain ⟨hu, hlt⟩ := Token.existing_eq_ok.1 hi
  rw [addressBare?_items hv, addressBare?_items hv] at ha
  have ht := eq_ok_of_address (fun _ _ => Address.item.inj) ha hu
  exact (hΓ.selectBare_item hv).2 ⟨i, Token.existing_eq_ok.2 ⟨ht, hlt⟩, hx⟩

/-- A token finds what another one of the same address finds. -/
theorem selectBare_of_address (hΓ : Γ.Plain) (ha : Γ.addressBare? u v = Γ.addressBare? t v)
    (h : Γ.selectBare u v = .ok x) : Γ.selectBare t v = .ok x := by
  cases hn : Γ.node v with
  | record name fields =>
    obtain ⟨path, hu, hx⟩ := (selectBare_field hn).1 h
    simp only [addressBare?, hn] at ha
    exact (selectBare_field hn).2 ⟨path, eq_ok_of_address (fun _ _ => Address.field.inj) ha hu, hx⟩
  | map key order elem entries =>
    obtain ⟨k, hu, hx⟩ := (selectBare_entry hn).1 h
    simp only [addressBare?, hn] at ha
    exact (selectBare_entry hn).2 ⟨k, eq_ok_of_address (fun _ _ => Address.entry.inj) ha hu, hx⟩
  | slice elem gap items => exact selectBare_item_of_address hΓ (items?_slice hn) ha h
  | array gap items => exact selectBare_item_of_address hΓ (items?_array hn) ha h
  | _ => simp [selectBare, hn] at h

/-- Two walks part at a container, or go on from a part of it that both find. -/
theorem diverge_cons : Γ.Diverge (t :: ts) (u :: us) v ↔ ∃ w, Γ.opened v = .ok w ∧
    (Γ.addressBare? u w ≠ Γ.addressBare? t w ∨ Γ.addressBare? u w = Γ.addressBare? t w ∧
      ∃ c, Γ.selectBare u w = .ok c ∧ Γ.Diverge ts us c) := by
  rw [Diverge]
  cases Γ.opened v with
  | error e => simp
  | ok w =>
    by_cases ha : Γ.addressBare? u w = Γ.addressBare? t w
    · cases hu : Γ.selectBare u w <;> simp [ha, hu]
    · simp [ha]

theorem diverge_opened (ho : Γ.opened v = .ok w) (h : Γ.Diverge ts us v) : Γ.Diverge ts us w := by
  cases ts with
  | nil => exact h.elim
  | cons t ts =>
    cases us with
    | nil => exact h.elim
    | cons u us =>
      obtain ⟨w', hw', h⟩ := diverge_cons.1 h
      cases ho.symm.trans hw'
      exact diverge_cons.2 ⟨w, opened_opened ho, h⟩

/-! ## One step -/

theorem select_of_opened (h : Γ.opened v = .ok w) (t : Token) :
    Γ.select t v = Γ.selectBare t w := by
  rw [select, h]
  rfl

/-- What a list of tokens leads to from a value, it leads to from what that is opened as. -/
theorem resolveTokens_opened (hΓ : Γ.Plain) {redirect : Val → Pointer → Except Stop Val}
    (h : Γ.opened v = .ok w) (t : Token) (ts : List Token) :
    Γ.resolveTokens redirect (t :: ts) v = Γ.resolveTokens redirect (t :: ts) w := by
  rw [hΓ.resolveTokens_step, hΓ.resolveTokens_step, select_of_opened h,
    select_of_opened (opened_opened h)]

section
variable (hex : Γ.Exchanged t v w d c) (hlegible : ∀ bytes, v.target = .raw bytes → Γ.Legible w)
include hex hlegible

theorem Exchanged.opens_legible {v₀ : Val} (ho : Γ.opened v = .ok v₀) (hn : Γ.node v₀ ≠ .nil) :
    ∃ w₀, Γ.opened w = .ok w₀ ∧ Γ.Exchange t v₀ w₀ d c := by
  obtain ⟨w₀, hw₀, hex₀⟩ := hex.opens (g := id) ho hn
    (fun bytes bytes' hv hw => rereadsBy_id.2 (hlegible bytes hv bytes' hw)) fun _ => rfl
  exact ⟨w₀, by rw [hw₀, Val.renumber_id], hex₀⟩

/-- The part that was found, if any, is the one that is exchanged, and the other is found
    afterwards. -/
theorem Exchanged.select (h : Γ.select t v = .ok x) : x = d ∧ Γ.select t w = .ok c := by
  obtain ⟨v₀, hv₀, hx⟩ := select_eq_ok.1 h
  obtain ⟨w₀, hw₀, hex₀⟩ := hex.opens_legible hlegible hv₀ (node_ne_nil_of_selectBare hx)
  obtain ⟨rfl, hc⟩ := hex₀.same rfl hx
  exact ⟨rfl, select_eq_ok.2 ⟨w₀, hw₀, hc⟩⟩

theorem Exchanged.select_same {v₀ : Val} (hv : Γ.opened v = .ok v₀)
    (ha : Γ.addressBare? u v₀ = Γ.addressBare? t v₀) (h : Γ.selectBare u v₀ = .ok x) :
    x = d ∧ Γ.select u w = .ok c := by
  obtain ⟨w₀, hw₀, hex₀⟩ := hex.opens_legible hlegible hv (node_ne_nil_of_selectBare h)
  obtain ⟨hxd, hc⟩ := hex₀.same ha h
  exact ⟨hxd, select_eq_ok.2 ⟨w₀, hw₀, hc⟩⟩

theorem Exchanged.select_other {v₀ : Val} (hv : Γ.opened v = .ok v₀)
    (ha : Γ.addressBare? u v₀ ≠ Γ.addressBare? t v₀)
    (hor : (∃ x, Γ.select t v = .ok x) ∨ ∃ x, Γ.select u v = .ok x) :
    Γ.select u w = Γ.select u v := by
  rw [select_of_opened hv, select_of_opened hv] at hor
  obtain ⟨w₀, hw₀, hex₀⟩ := hex.opens_legible hlegible hv (node_ne_nil_of_or hor)
  rw [select_of_opened hv, select_of_opened hw₀, hex₀.other ha hor]

theorem Exchanged.keeps : Γ.KeepsKeys v w := by
  intro ks hks
  cases hv : Γ.opened v with
  | error e => simp [keys?, hv, Except.toOption] at hks
  | ok v₀ =>
    have hbare : Γ.keysBare? v₀ = some ks := by simpa [keys?, hv, Except.toOption] using hks
    have hn : Γ.node v₀ ≠ .nil := by
      intro hn
      simp [keysBare?, hn] at hbare
    obtain ⟨w₀, hw₀, hex₀⟩ := hex.opens_legible hlegible hv hn
    obtain ⟨ks', hks', hsub⟩ := hex₀.keys hbare
    exact ⟨ks', by simpa [keys?, hw₀, Except.toOption] using hks', hsub⟩

end

/-! ## Regions on the way -/

section
variable {redirect : Val → Pointer → Except Stop Val} {bytes : ByteArray} {j : Json}

theorem resolveTokens_cons_ok (hΓ : Γ.Plain) :
    Γ.resolveTokens redirect (t :: ts) v = .ok x ↔
      ∃ c, Γ.select t v = .ok c ∧ Γ.resolveTokens redirect ts c = .ok x := by
  rw [hΓ.resolveTokens_step]
  cases Γ.select t v <;> simp

theorem resolveTokens_append_of_ok (hΓ : Γ.Plain) (h : Γ.resolveTokens redirect ts v = .ok x)
    (us : List Token) :
    Γ.resolveTokens redirect (ts ++ us) v = Γ.resolveTokens redirect us x := by
  rw [resolveTokens_append _ hΓ, h]

theorem Enters.append (h : Γ.Enters ts v bytes) (us : List Token) :
    Γ.Enters (ts ++ us) v bytes := by
  induction h with
  | here hb => exact .here hb
  | later hc _ ih => exact .later hc ih

theorem enters_of_resolveTokens (hΓ : Γ.Plain) (hx : Γ.resolveTokens redirect ts v = .ok x)
    (h : Γ.Enters us x bytes) : Γ.Enters (ts ++ us) v bytes := by
  induction ts generalizing v with
  | nil =>
    cases hx
    exact h
  | cons u ts ih =>
    obtain ⟨c, hc, hx⟩ := (resolveTokens_cons_ok hΓ).1 hx
    exact .later hc (ih hx)

theorem enters_singleton : Γ.Enters [t] v bytes ↔ v.target = .raw bytes := by
  constructor
  · intro h
    cases h with
    | here hb => exact hb
    | later _ h => cases h
  · exact .here

theorem enters_of_raw (hts : ts ≠ []) (hv : v.target = .raw bytes) : Γ.Enters ts v bytes := by
  obtain ⟨t, ts, rfl⟩ := List.exists_cons_of_ne_nil hts
  exact .here hv

/-- A walk that goes on enters a region in one part or in the other. -/
theorem Enters.of_append (hΓ : Γ.Plain) (h : Γ.Enters (ts ++ us) v bytes)
    (hx : Γ.resolveTokens redirect ts v = .ok x) : Γ.Enters ts v bytes ∨ Γ.Enters us x bytes := by
  induction ts generalizing v with
  | nil =>
    cases hx
    exact .inr h
  | cons t ts ih =>
    obtain ⟨c, hc, hx⟩ := (resolveTokens_cons_ok hΓ).1 hx
    cases h with
    | here hb => exact .inl (.here hb)
    | later hc' h =>
      cases hc.symm.trans hc'
      exact (ih h hx).imp (.later hc) id

/-- What a walk finds behind a region is JSON. -/
theorem Enters.json (hΓ : Γ.Plain) (h : Γ.Enters ts v bytes)
    (hx : Γ.resolveTokens redirect ts v = .ok x) : ∃ j, x = .json j := by
  induction h with
  | here hb =>
    obtain ⟨c, hc, hx⟩ := (resolveTokens_cons_ok hΓ).1 hx
    obtain ⟨w, ho, hc⟩ := select_eq_ok.1 hc
    rcases opened_cases ho with ⟨-, hr⟩ | ⟨-, j, -, -, -, rfl⟩
    · exact absurd hb (hr _)
    · obtain ⟨i, rfl⟩ := json_of_selectBare hc
      exact json_of_resolveTokens hΓ hx
  | later hc _ ih =>
    obtain ⟨c, hc', hx⟩ := (resolveTokens_cons_ok hΓ).1 hx
    cases hc.symm.trans hc'
    exact ih hx

/-- There are no regions in a JSON value. -/
theorem not_enters_json : ¬Γ.Enters ts (.json j) bytes := by
  intro h
  induction ts generalizing j with
  | nil => cases h
  | cons t ts ih =>
    cases h with
    | here hb => cases hb
    | later hc h =>
      obtain ⟨i, rfl⟩ := json_of_selectBare hc
      exact ih h

/-- Behind a region no other one is entered. -/
theorem Enters.eq_of_raw {bytes' : ByteArray} (h : Γ.Enters ts v bytes)
    (hv : v.target = .raw bytes') : bytes = bytes' := by
  cases h with
  | here hb =>
    cases hb.symm.trans hv
    rfl
  | later hc h =>
    obtain ⟨w, ho, hc⟩ := select_eq_ok.1 hc
    rcases opened_cases ho with ⟨-, hr⟩ | ⟨-, j, -, -, -, rfl⟩
    · exact absurd hv (hr _)
    · obtain ⟨i, rfl⟩ := json_of_selectBare hc
      exact absurd h not_enters_json

theorem not_shares_json : ¬Γ.Shares ts us (.json j) := by
  intro h
  induction ts generalizing us j with
  | nil => cases h
  | cons t ts ih =>
    cases h with
    | here hb => cases hb
    | later ho _ hc h =>
      cases ho
      obtain ⟨i, rfl⟩ := json_of_selectBare hc
      exact ih h

/-- A walk shares with itself the regions that it goes on in. -/
theorem shares_of_enters (h : Γ.Enters ts v bytes) : Γ.Shares ts ts v := by
  induction h with
  | here hb => exact .here hb
  | later hc _ ih =>
    obtain ⟨w, ho, hc⟩ := select_eq_ok.1 hc
    exact .later ho rfl hc ih

/-- A walk that shares a region goes on in one. -/
theorem Shares.enters (hΓ : Γ.Plain) (h : Γ.Shares ts us v) : ∃ bytes, Γ.Enters ts v bytes := by
  induction h with
  | here hb => exact ⟨_, .here hb⟩
  | later ho ha hc _ ih =>
    obtain ⟨bytes, h⟩ := ih
    exact ⟨bytes, .later (select_eq_ok.2 ⟨_, ho, selectBare_of_address hΓ ha hc⟩) h⟩

theorem legible_of_shares
    (hread : Γ.Shares (t :: ts) (u :: us) v → ∀ bytes, Γ.Enters (t :: ts) w bytes →
      Γ.Rereads bytes) (bytes : ByteArray) (hv : v.target = .raw bytes) : Γ.Legible w :=
  fun bytes' hw => hread (.here hv) bytes' (.here hw)

end

/-! ## Walks -/

section
variable {redirect : Val → Pointer → Except Stop Val}

theorem KeepsKeys.refl (v : Val) : Γ.KeepsKeys v v := fun ks h => ⟨ks, h, .refl _⟩

theorem keys?_opened (h : Γ.opened v = .ok w) : Γ.keys? v = Γ.keys? w := by
  rw [keys?, keys?, h, opened_opened h]

/-- Numbers are no keys. -/
theorem keys?_renumber (g : Number → Number) (v : Val) : Γ.keys? (v.renumber g) = Γ.keys? v := by
  cases v with
  | json j =>
    cases j with
    | obj ms =>
      have hkeys (ns : Members Json) : Γ.keys? (.json (.obj ns)) =
          some ((Members.names ns).map .text) := by
        simp [keys?, opened, Val.target, Except.toOption, keysBare?, node, Json.node,
          Members.names, Function.comp_def]
      rw [Val.renumber_json, Json.renumber, hkeys, hkeys, Json.names_renumberMembers]
    | _ => rfl
  | _ => rfl

/-- What was found at the end of a changed path has changed, and is found there. -/
theorem Changed.resolve (hΓ : Γ.Plain) (h : Γ.Changed F ts v w)
    (hread : Γ.Shares ts ts v → ∀ bytes, Γ.Enters ts w bytes → Γ.Rereads bytes)
    (hx : Γ.resolveTokens redirect ts v = .ok x) :
    ∃ y, F x y ∧ Γ.resolveTokens redirect ts w = .ok y := by
  induction h with
  | here hF =>
    cases hx
    exact ⟨_, hF, rfl⟩
  | under hex _ ih =>
    obtain ⟨d, hd, hx⟩ := (resolveTokens_cons_ok hΓ).1 hx
    obtain ⟨rfl, hc⟩ := hex.select (legible_of_shares hread) hd
    obtain ⟨v₀, ho, hd₀⟩ := select_eq_ok.1 hd
    obtain ⟨y, hy, hres⟩ :=
      ih (fun hs bytes hb => hread (.later ho rfl hd₀ hs) bytes (.later hc hb)) hx
    exact ⟨y, hy, (resolveTokens_cons_ok hΓ).2 ⟨_, hc, hres⟩⟩

/-- **A walk that parts from a changed path is as it was**, if what it leads to was there, or
    what the path leads to, and a region in which both go on is read as what was written. -/
theorem Changed.resolve_of_diverge (hΓ : Γ.Plain) (h : Γ.Changed F ts v w)
    (hread : Γ.Shares ts us v → ∀ bytes, Γ.Enters ts w bytes → Γ.Rereads bytes)
    (hd : Γ.Diverge ts us v)
    (hor : (∃ x, Γ.resolveTokens redirect ts v = .ok x) ∨
      ∃ y, Γ.resolveTokens redirect us v = .ok y) :
    Γ.resolveTokens redirect us w = Γ.resolveTokens redirect us v := by
  induction h generalizing us with
  | here => exact hd.elim
  | @under t ts v w d c hex _ ih =>
    cases us with
    | nil => exact hd.elim
    | cons u us =>
      have hleg := legible_of_shares hread
      simp only [resolveTokens_cons_ok hΓ] at hor
      obtain ⟨v₀, hv₀, ha | ⟨ha, e, he, hd⟩⟩ := diverge_cons.1 hd
      -- the walks part here
      · have hsel : Γ.select u w = Γ.select u v := by
          refine hex.select_other hleg hv₀ ha ?_
          rcases hor with ⟨x, b, hb, -⟩ | ⟨y, b, hb, -⟩
          · exact .inl ⟨b, hb⟩
          · exact .inr ⟨b, hb⟩
        rw [hΓ.resolveTokens_step, hΓ.resolveTokens_step, hsel]
      -- both go on, from the part that is exchanged
      · obtain ⟨rfl, hu⟩ := hex.select_same hleg hv₀ ha he
        have ht := select_eq_ok.2 ⟨v₀, hv₀, selectBare_of_address hΓ ha he⟩
        have hu' := select_eq_ok.2 ⟨v₀, hv₀, he⟩
        have hc := (hex.select hleg ht).2
        rw [hΓ.resolveTokens_cons redirect u us hu, hΓ.resolveTokens_cons redirect u us hu']
        refine ih (fun hs bytes hb => hread (.later hv₀ ha he hs) bytes (.later hc hb)) hd ?_
        rcases hor with ⟨x, b, hb, hx⟩ | ⟨y, b, hb, hy⟩
        · cases ht.symm.trans hb
          exact .inl ⟨x, hx⟩
        · cases hu'.symm.trans hb
          exact .inr ⟨y, hy⟩

/-- On a changed path, and on one that parts from it, what was found before the end is found
    afterwards, and an object among it keeps the order of its keys. -/
theorem Changed.keeps (hΓ : Γ.Plain) (h : Γ.Changed F ts v w) {rs more : List Token}
    (hread : Γ.Shares ts (rs ++ [u]) v → ∀ bytes, Γ.Enters ts w bytes → Γ.Rereads bytes)
    (hus : us = ts ∨ Γ.Diverge ts us v) (hcut : us = rs ++ u :: more)
    (hx : Γ.resolveTokens redirect rs v = .ok x) :
    ∃ y, Γ.resolveTokens redirect rs w = .ok y ∧ Γ.KeepsKeys x y := by
  induction h generalizing us rs with
  | here =>
    rcases hus with rfl | hd
    · simp at hcut
    · exact hd.elim
  | @under t ts v w d c hex _ ih =>
    cases rs with
    | nil =>
      cases hx
      exact ⟨w, rfl, hex.keeps (legible_of_shares hread)⟩
    | cons r rs =>
      have hleg := legible_of_shares hread
      subst hcut
      obtain ⟨b, hb, hx⟩ := (resolveTokens_cons_ok hΓ).1 hx
      obtain ⟨v₀, hv₀, hb₀⟩ := select_eq_ok.1 hb
      have hbelow {us : List Token} (hus : us = ts ∨ Γ.Diverge ts us b)
          (hcut : us = rs ++ u :: more) (ha : Γ.addressBare? r v₀ = Γ.addressBare? t v₀) :
          ∃ y, Γ.resolveTokens redirect (r :: rs) w = .ok y ∧ Γ.KeepsKeys x y := by
        obtain ⟨rfl, hr⟩ := hex.select_same hleg hv₀ ha hb₀
        have ht := select_eq_ok.2 ⟨v₀, hv₀, selectBare_of_address hΓ ha hb₀⟩
        have hc := (hex.select hleg ht).2
        obtain ⟨y, hy, hkeys⟩ := ih
          (fun hs bytes hb => hread (.later hv₀ ha hb₀ hs) bytes (.later hc hb)) hus hcut hx
        exact ⟨y, (resolveTokens_cons_ok hΓ).2 ⟨c, hr, hy⟩, hkeys⟩
      rcases hus with hts | hd
      · cases hts
        exact hbelow (.inl rfl) rfl rfl
      · obtain ⟨w₀, hw₀, ha | ⟨ha, e, he, hd⟩⟩ := diverge_cons.1 hd
        · have hsel := hex.select_other hleg hw₀ ha (.inr ⟨b, hb⟩)
          refine ⟨x, (resolveTokens_cons_ok hΓ).2 ⟨b, hsel.trans hb, hx⟩, .refl x⟩
        · cases hv₀.symm.trans hw₀
          cases hb₀.symm.trans he
          exact hbelow (.inr hd) rfl ha

/-! ## What is read back -/

section
variable {bytes bytes' : ByteArray}

theorem renumbering_of_not_enters (h : ∀ bytes, ¬Γ.Enters ts v bytes) (w : Val) :
    Γ.renumbering ts v w = id := if_pos (.inl h)

theorem renumbering_of_rereads (h : ∀ bytes, Γ.Enters ts w bytes → Γ.Rereads bytes) :
    Γ.renumbering ts v w = id := if_pos (.inr h)

/-- In a region that can be read the numbers are read as they are. -/
theorem rereadsBy_renumbering (hv : Γ.Enters ts v bytes) (hw : Γ.Enters ts w bytes')
    (h : Γ.RereadsBy (Number.reread Γ.reading.rounding) bytes') :
    Γ.RereadsBy (Γ.renumbering ts v w) bytes' := by
  rw [renumbering]
  split
  · next hor =>
    rcases hor with hnone | hall
    · exact absurd hv (hnone bytes)
    · exact rereadsBy_id.2 (hall bytes' hw)
  · exact h

end

/-! ## Walks that go on in one region -/

/-- A change at the end of `os ++ is`, for whose walk and that of `os' ++ js` the region `r` is the
    one in which both go on; `r'` is what became of it. -/
structure Crossing (Γ : Schema) (F : Val → Val → Prop) (os is os' js : List Token)
    (v w r r' : Val) : Prop where
  region : ∃ bytes, r.target = .raw bytes
  leads (redirect : Val → Pointer → Except Stop Val) : Γ.resolveTokens redirect os v = .ok r
  finds (redirect : Val → Pointer → Except Stop Val) : Γ.resolveTokens redirect os' v = .ok r
  finds' (redirect : Val → Pointer → Except Stop Val) : Γ.resolveTokens redirect os' w = .ok r'
  changed : Γ.Changed F is r r'
  enters {bytes : ByteArray} : r'.target = .raw bytes → Γ.Enters (os ++ is) w bytes
  diverge (more : List Token) : Γ.Diverge (os ++ is) (os' ++ js ++ more) v →
    Γ.Diverge is (js ++ more) r

/-- The walks are cut where they both go on in a region. -/
theorem Changed.cut (hΓ : Γ.Plain) (h : Γ.Changed F ts v w) (hs : Γ.Shares ts us v) :
    ∃ os is os' js r r', ts = os ++ is ∧ us = os' ++ js ∧ os.length = os'.length ∧ js ≠ [] ∧
      Γ.Crossing F os is os' js v w r r' := by
  induction hs generalizing w with
  | @here t u ts us v bytes hv =>
    refine ⟨[], t :: ts, [], u :: us, v, w, rfl, rfl, rfl, by simp, ⟨bytes, hv⟩,
      fun _ => rfl, fun _ => rfl, fun _ => rfl, h, ?_, fun _ => id⟩
    intro bytes' hw
    exact .here hw
  | @later t u ts us v v₀ d ho ha hd hs ih =>
    cases h with
    | @under _ _ _ _ e c hex hch =>
      -- nothing is shared below a region
      have hleg (bytes : ByteArray) (hv : v.target = .raw bytes) : Γ.Legible w := by
        rcases opened_cases ho with ⟨-, hr⟩ | ⟨-, j, -, -, -, rfl⟩
        · exact absurd hv (hr bytes)
        · obtain ⟨i, rfl⟩ := json_of_selectBare hd
          exact absurd hs not_shares_json
      obtain ⟨rfl, hu⟩ := hex.select_same hleg ho ha hd
      have hud := select_eq_ok.2 ⟨v₀, ho, hd⟩
      have htd := select_eq_ok.2 ⟨v₀, ho, selectBare_of_address hΓ ha hd⟩
      have htc := (hex.select hleg htd).2
      obtain ⟨os, is, os', js, r, r', rfl, rfl, hlen, hjs, hm⟩ := ih hch
      refine ⟨t :: os, is, u :: os', js, r, r', rfl, rfl, congrArg (· + 1) hlen, hjs, hm.region,
        ?_, ?_, ?_, hm.changed, ?_, ?_⟩
      · exact fun redirect => (resolveTokens_cons_ok hΓ).2 ⟨d, htd, hm.leads redirect⟩
      · exact fun redirect => (resolveTokens_cons_ok hΓ).2 ⟨d, hud, hm.finds redirect⟩
      · exact fun redirect => (resolveTokens_cons_ok hΓ).2 ⟨c, hu, hm.finds' redirect⟩
      · exact fun hr' => .later htc (hm.enters hr')
      · intro more hdiv
        obtain ⟨w₀, hw₀, hne | ⟨-, e, he, hdiv⟩⟩ := diverge_cons.1 hdiv
        · cases ho.symm.trans hw₀
          exact absurd ha hne
        · cases ho.symm.trans hw₀
          cases hd.symm.trans he
          exact hm.diverge more hdiv

/-- A change in a region is one in the value that it spells. -/
theorem Changed.of_region {bytes : ByteArray} {v₀ : Val} (h : Γ.Changed F (t :: ts) v w)
    (hv : v.target = .raw bytes) (ho : Γ.opened v = .ok v₀) :
    ∃ j k bytes', v₀ = .json j ∧ w.target = .raw bytes' ∧
      Γ.Changed F (t :: ts) (.json j) (.json k) ∧
        ∀ g, Γ.RereadsBy g bytes' → Γ.opened w = .ok (.json (k.renumber g)) := by
  cases h with
  | @under _ _ _ _ d c hex hch =>
    rcases opened_cases ho with ⟨-, hr⟩ | ⟨-, j, -, -, -, rfl⟩
    · exact absurd hv (hr bytes)
    · obtain ⟨k, hk, hw, hex⟩ := hex.region hv ho
      refine ⟨j, k, k.toBytes, rfl, hw, .under hex.exchanged_json hch, fun g hg => ?_⟩
      rw [opened, hw]
      exact (opened_region (hg k hk rfl)).1

section
variable {redirect : Val → Pointer → Except Stop Val} {g : Number → Number} {bytes : ByteArray}
  (hΓ : Γ.Plain) (h : Γ.Changed F ts v w) (hv : v.target = .raw bytes)
  (hread : ∀ bytes, w.target = .raw bytes → Γ.RereadsBy g bytes)
include hΓ h hv hread

/-- Walks from a region: one that parts from the changed path finds what it found, -/
theorem Changed.resolve_region (hd : Γ.Diverge ts us v)
    (hor : (∃ x, Γ.resolveTokens redirect ts v = .ok x) ∨
      ∃ y, Γ.resolveTokens redirect us v = .ok y) :
    Γ.resolveTokens redirect us w = (Γ.resolveTokens redirect us v).map (·.renumber g) := by
  cases ts with
  | nil => exact hd.elim
  | cons t ts =>
    cases us with
    | nil => exact hd.elim
    | cons u us =>
      obtain ⟨v₀, ho, -⟩ := diverge_cons.1 hd
      obtain ⟨j, k, bytes', rfl, hw, hch, hopened⟩ := h.of_region hv ho
      rw [resolveTokens_opened hΓ ho, resolveTokens_opened hΓ ho] at hor
      have hinside := hch.resolve_of_diverge hΓ (fun hs => absurd hs not_shares_json)
        (diverge_opened ho hd) hor
      rw [resolveTokens_opened hΓ (hopened g (hread bytes' hw)), resolveTokens_opened hΓ ho,
        resolveTokens_renumber hΓ, hinside]

/-- what was at the end of the path has changed, -/
theorem Changed.found_region (hts : ts ≠ []) (hx : Γ.resolveTokens redirect ts v = .ok x) :
    ∃ y, F x y ∧ Γ.resolveTokens redirect ts w = .ok (y.renumber g) := by
  obtain ⟨t, ts, rfl⟩ := List.exists_cons_of_ne_nil hts
  obtain ⟨c, hc, -⟩ := (resolveTokens_cons_ok hΓ).1 hx
  obtain ⟨v₀, ho, -⟩ := select_eq_ok.1 hc
  obtain ⟨j, k, bytes', rfl, hw, hch, hopened⟩ := h.of_region hv ho
  rw [resolveTokens_opened hΓ ho] at hx
  obtain ⟨y, hF, hy⟩ := hch.resolve hΓ (fun hs => absurd hs not_shares_json) hx
  refine ⟨y, hF, ?_⟩
  rw [resolveTokens_opened hΓ (hopened g (hread bytes' hw)), resolveTokens_renumber hΓ, hy]
  rfl

/-- and objects before the end keep the order of their keys. -/
theorem Changed.keeps_region {rs more : List Token} (hcut : us = rs ++ u :: more)
    (hus : us = ts ∨ Γ.Diverge ts us v) (hx : Γ.resolveTokens redirect rs v = .ok x) :
    ∃ y, Γ.resolveTokens redirect rs w = .ok y ∧ Γ.KeepsKeys x y := by
  cases ts with
  | nil =>
    rcases hus with rfl | hd
    · simp at hcut
    · exact hd.elim
  | cons t ts =>
    cases ho : Γ.opened v with
    -- then it has no keys, and nothing is found in it
    | error e =>
      cases rs with
      | nil =>
        cases hx
        refine ⟨w, rfl, fun keys hkeys => ?_⟩
        simp [keys?, ho, Except.toOption] at hkeys
      | cons r rs =>
        obtain ⟨c, hc, -⟩ := (resolveTokens_cons_ok hΓ).1 hx
        obtain ⟨v₀, ho', -⟩ := select_eq_ok.1 hc
        cases ho.symm.trans ho'
    | ok v₀ =>
      obtain ⟨j, k, bytes', rfl, hw, hch, hopened⟩ := h.of_region hv ho
      have ho' := hopened g (hread bytes' hw)
      have hinside {x : Val} (hx : Γ.resolveTokens redirect rs (.json j) = .ok x) :=
        hch.keeps hΓ (fun hs => absurd hs not_shares_json) (hus.imp id (diverge_opened ho)) hcut hx
      cases rs with
      | nil =>
        cases hx
        obtain ⟨y, hy, hkeys⟩ := hinside rfl
        cases hy
        refine ⟨w, rfl, fun keys hkeys' => ?_⟩
        rw [keys?_opened ho', ← Val.renumber_json, keys?_renumber]
        exact hkeys keys (keys?_opened ho ▸ hkeys')
      | cons r rs =>
        rw [resolveTokens_opened hΓ ho] at hx
        obtain ⟨y, hy, hkeys⟩ := hinside hx
        refine ⟨y.renumber g, ?_, fun keys hkeys' => ?_⟩
        · rw [resolveTokens_opened hΓ ho', resolveTokens_renumber hΓ, hy]
          rfl
        · rw [keys?_renumber]
          exact hkeys keys hkeys'

end

section
variable {redirect : Val → Pointer → Except Stop Val} {g : Number → Number} (hΓ : Γ.Plain)
  (h : Γ.Changed F ts v w) (hread : ∀ bytes, Γ.Enters ts w bytes → Γ.RereadsBy g bytes)
include hΓ h hread

/-- **A walk that goes on in the same region and parts from a changed path there** finds
    what it found, with the numbers that are read in the region afterwards. -/
theorem Changed.resolve_of_shares (hs : Γ.Shares ts us v) (hd : Γ.Diverge ts us v)
    (hor : (∃ x, Γ.resolveTokens redirect ts v = .ok x) ∨
      ∃ y, Γ.resolveTokens redirect us v = .ok y) :
    Γ.resolveTokens redirect us w = (Γ.resolveTokens redirect us v).map (·.renumber g) := by
  obtain ⟨os, is, os', js, r, r', rfl, rfl, -, -, hm⟩ := h.cut hΓ hs
  obtain ⟨bytes, hr⟩ := hm.region
  have hd : Γ.Diverge is js r := by simpa using hm.diverge [] (by simpa using hd)
  rw [resolveTokens_append_of_ok hΓ (hm.leads redirect),
    resolveTokens_append_of_ok hΓ (hm.finds redirect)] at hor
  rw [resolveTokens_append_of_ok hΓ (hm.finds' redirect),
    resolveTokens_append_of_ok hΓ (hm.finds redirect)]
  exact hm.changed.resolve_region hΓ hr (fun b hb => hread b (hm.enters hb)) hd hor

/-- **What was found at the end of a changed path in a region** has changed and is found there,
    with the numbers that are read in the region. -/
theorem Changed.resolve_of_enters (hs : Γ.Shares ts ts v)
    (hx : Γ.resolveTokens redirect ts v = .ok x) :
    ∃ y, F x y ∧ Γ.resolveTokens redirect ts w = .ok (y.renumber g) := by
  obtain ⟨os, is, os', js, r, r', hts, hus, hlen, hjs, hm⟩ := h.cut hΓ hs
  obtain ⟨rfl, rfl⟩ := List.append_inj (hts.symm.trans hus) hlen
  subst hts
  obtain ⟨bytes, hr⟩ := hm.region
  rw [resolveTokens_append_of_ok hΓ (hm.finds redirect)] at hx
  rw [resolveTokens_append_of_ok hΓ (hm.finds' redirect)]
  exact hm.changed.found_region hΓ hr (fun b hb => hread b (hm.enters hb)) hjs hx

/-- What was found in a region before the end of a changed path, or of one that parts from it
    there, is found afterwards, and an object among it keeps the order of its keys. -/
theorem Changed.keeps_of_shares {rs more : List Token} (hs : Γ.Shares ts (rs ++ [u]) v)
    (hus : rs ++ u :: more = ts ∨ Γ.Diverge ts (rs ++ u :: more) v)
    (hx : Γ.resolveTokens redirect rs v = .ok x) :
    ∃ y, Γ.resolveTokens redirect rs w = .ok y ∧ Γ.KeepsKeys x y := by
  obtain ⟨os, is, os', js, r, r', rfl, hrs, hlen, hjs, hm⟩ := h.cut hΓ hs
  obtain ⟨bytes, hr⟩ := hm.region
  obtain ⟨ks, u', rfl⟩ := (List.eq_nil_or_concat' js).resolve_left hjs
  obtain ⟨rfl, hu⟩ := List.append_inj' (hrs.trans (List.append_assoc os' ks [u']).symm) rfl
  obtain rfl : u = u' := List.singleton_injective hu
  have hus' : ks ++ u :: more = is ∨ Γ.Diverge is (ks ++ u :: more) r := by
    rw [List.append_assoc] at hus
    refine hus.imp (fun hts => (List.append_inj hts hlen.symm).2) fun hd => ?_
    have hd := hm.diverge more (by simpa using hd)
    simpa using hd
  rw [resolveTokens_append_of_ok hΓ (hm.finds redirect)] at hx
  rw [resolveTokens_append_of_ok hΓ (hm.finds' redirect)]
  exact hm.changed.keeps_region hΓ hr (fun b hb => hread b (hm.enters hb)) rfl hus' hx

end

theorem relays_nil (v w : Val) : Γ.Relays [] v w v w := ⟨fun _ _ _ => id, fun _ _ _ => id⟩

/-- One more token in front. -/
theorem Relays.cons (hΓ : Γ.Plain) {e : Val} (h : Γ.Relays ts d e x y)
    (hstep : ∀ f here, f d = (.ok (), e) →
      Γ.allocating (Shape.ofToken t) (fun u => Γ.descend here t f u) v = (.ok (), w) ∧
        v.onTarget (fun u => Γ.remove here t false f u) = (.ok (), w)) :
    Γ.Relays (t :: ts) v w x y := by
  constructor
  · intro r us z hz
    rw [List.cons_append, hΓ.assignTokens_cons]
    exact (hstep _ _ (h.1 r us z hz)).1
  · intro r us hus hy
    have hlast : (ts ++ us).isEmpty = false := by simp [hus]
    rw [List.cons_append, hΓ.deleteTokens_cons, hlast]
    exact (hstep _ _ (h.2 r us hus hy)).2

end

/-! ## Calls -/

/-- An assign changes the slot at the end of its tokens. -/
theorem changed_of_assignTokens (hΓ : Γ.Plain) (hnames : (Members.names Γ.records).Nodup)
    (hx : x.Proper) (redirect : Val → Pointer → Val → Outcome) (ts : List Token)
    (h : Γ.assignTokens redirect ts v x = (.ok (), w)) :
    Γ.Changed (fun a b => Γ.store a x = (.ok (), b)) ts v w := by
  induction ts generalizing v w with
  | nil => exact .here (assignTokens_nil_ok.1 h)
  | cons t ts ih =>
    rw [hΓ.assignTokens_cons] at h
    obtain ⟨d, c, hc, hex⟩ := advance_exchange hΓ hnames (fits_of_assignTokens hΓ hx _ ts) h
    exact .under hex (ih hc)

/-- **An assign touches only its own path.**  What the walk of a pointer finds that parts from
    it at some container, it finds afterwards; and what was found on the way, of either
    pointer, is found afterwards, with the keys of objects in their order.  Only if both go on
    in one region, that has to nest such that it can be read, and what is found in it has the
    numbers that are read there. -/
theorem finds_of_diverge (hΓ : Γ.Plain) (hnames : (Members.names Γ.records).Nodup)
    (hx : x.Proper) (h : Γ.assign doc p x = (.ok (), doc')) :
    Γ.KeepsWay doc doc' p p ∧
      ∀ q, q.validate = .ok () → Γ.Diverge p.tokens q.tokens doc →
        Γ.KeepsWay doc doc' p q ∧ ∀ y, Γ.Finds doc q y →
          (¬Γ.Shares p.tokens q.tokens doc → Γ.Finds doc' q y) ∧
          (Γ.Shares p.tokens q.tokens doc →
            (∀ bytes, Γ.Enters p.tokens doc' bytes → Γ.Readable bytes) →
              Γ.Finds doc' q (y.renumber (Γ.renumbering p.tokens doc doc'))) := by
  obtain ⟨hp, h⟩ := assign_ok_iff.1 h
  have hchanged := changed_of_assignTokens hΓ hnames hx _ _ h
  have hkeeps {s : Pointer} (hs : s.validate = .ok ())
      (hus : s.tokens = p.tokens ∨ Γ.Diverge p.tokens s.tokens doc) :
      Γ.KeepsWay doc doc' p s := by
    intro rs t ts v hcut hv hread
    have hspelled := (Pointer.spelled_of_cut hs hcut).1
    rw [finds_ofTokens hspelled] at hv
    simp only [finds_ofTokens hspelled]
    by_cases hshares : Γ.Shares p.tokens (rs ++ [t]) doc
    · exact hchanged.keeps_of_shares hΓ (fun bytes hb => (hread hshares bytes hb).rereadsBy)
        hshares (hcut ▸ hus) hv
    · exact hchanged.keeps hΓ (fun hs => absurd hs hshares) hus hcut hv
  refine ⟨hkeeps hp (.inl rfl), ?_⟩
  intro q hq hd
  refine ⟨hkeeps hq (.inr hd), ?_⟩
  intro y hy
  simp only [finds_iff, seek_eq hq] at hy ⊢
  constructor
  · intro hshares
    rw [hchanged.resolve_of_diverge hΓ (fun hs => absurd hs hshares) hd (.inr ⟨y, hy⟩), hy]
  · intro hshares hread
    obtain ⟨bytes, hin⟩ := hshares.enters hΓ
    rw [hchanged.resolve_of_shares hΓ (fun b hb =>
      rereadsBy_renumbering hin hb (hread b hb).rereadsBy)
      hshares hd (.inr ⟨y, hy⟩), hy]
    rfl

/-- A port is added to the notes of a job, beside the one that is there. -/
theorem busyJob_beside : ∃ doc' y,
    jobs.assign busyJob ⟨"/notes/ports/-"⟩ (.string "https") = (.ok (), doc') ∧
      jobs.Finds busyJob ⟨"/notes/ports/0"⟩ y ∧ jobs.Finds doc' ⟨"/notes/ports/0"⟩ y := by
  have hnames : (Members.names jobs.records).Nodup := by decide +kernel
  have hok : (jobs.assign busyJob ⟨"/notes/ports/-"⟩ (.string "https")).1.isOk = true := by
    decide +kernel
  have hfound : (jobs.seek busyJob ⟨"/notes/ports/0"⟩).isOk = true := by decide +kernel
  have hd : jobs.Diverge (Pointer.tokens ⟨"/notes/ports/-"⟩) (Pointer.tokens ⟨"/notes/ports/0"⟩)
      busyJob := by decide +kernel
  have hproper : (Val.string "https").Proper := trivial
  obtain ⟨doc', hdoc⟩ := Attempt.done_of_isOk hok
  obtain ⟨y, hy⟩ := finds_of_isOk hfound
  obtain ⟨-, hother⟩ := finds_of_diverge plain_jobs hnames hproper hdoc
  obtain ⟨-, hfinds⟩ := hother _ rfl hd
  refine ⟨doc', y, hdoc, hy, ?_⟩
  have hrereads (bytes : ByteArray) : jobs.Rereads bytes := (faithful_of_exact rfl).rereads bytes
  by_cases hs : jobs.Shares (Pointer.tokens ⟨"/notes/ports/-"⟩) (Pointer.tokens ⟨"/notes/ports/0"⟩)
      busyJob
  · have hfound := (hfinds y hy).2 hs fun bytes _ => (hrereads bytes).readable
    rwa [renumbering_of_rereads fun bytes _ => hrereads bytes, Val.renumber_id] at hfound
  · exact (hfinds y hy).1 hs

/-- What a walk has found is lost if it is another value afterwards. -/
theorem lost_of_ne {α : Type} {f : Val → α} {a b : α}
    (hbefore : (Γ.seek doc p).toOption.map f = some a)
    (hafter : (Γ.seek doc' p).toOption.map f = some b) (hne : a ≠ b) :
    ∃ y, Γ.Finds doc p y ∧ ¬Γ.Finds doc' p y := by
  cases hy : Γ.seek doc p with
  | error s =>
    rw [hy] at hbefore
    cases hbefore
  | ok y =>
    refine ⟨y, hy, ?_⟩
    intro hy'
    rw [finds_iff.1 hy'] at hafter
    rw [hy, hafter] at hbefore
    exact hne (Option.some.inj hbefore).symm

/-- Objects in one another. -/
def nested : Nat → Json
  | 0 => .obj []
  | n + 1 => .obj [("a", nested n)]

theorem height_nested (n : Nat) : (nested n).height = n + 1 := by
  induction n with
  | zero => rfl
  | succ n ih => simp [nested, Json.height, Json.heightOfMembers, ih]

/-- A region in which a value is written that nests deeper than is read cannot be opened. -/
theorem opened_of_too_deep {k : Json} (hk : ¬Room Γ.reading.depth k.height) :
    ∃ e, Γ.opened (.raw k.toBytes) = .error e := by
  cases ho : Γ.opened (.raw k.toBytes) with
  | error e => exact ⟨e, rfl⟩
  | ok w =>
    rcases opened_cases ho with ⟨-, hr⟩ | ⟨bytes, j, hb, -, hj, -⟩
    · exact absurd rfl (hr _)
    · cases hb
      exact absurd (Json.exists_ofBytes?_iff.1 ⟨j, hj⟩) hk

/-- An assign may write such a value. -/
theorem assign_too_deep :
    let Γ := Command.noRecords Command.reading
    let doc := Command.region "\x7b\"a\":\x7b\"a\":\x7b\"a\":\x7b\x7d\x7d\x7d,\"c\":1\x7d"
    ∃ (k : Json) (e : Refusal), Γ.assign doc ⟨"/a/a/a/b"⟩ (.json (nested 123)) =
      (.ok (), .raw k.toBytes) ∧ Γ.opened (.raw k.toBytes) = .error e := by
  intro Γ doc
  have hdoc : ∃ n, Γ.assign doc ⟨"/a/a/a/b"⟩ (.json (nested 123)) = (.ok (), .raw (Json.obj
      [("a", .obj [("a", .obj [("a", .obj [("b", nested 123)])])]), ("c", .num n)]).toBytes) :=
    ⟨_, rfl⟩
  obtain ⟨n, hdoc⟩ := hdoc
  have hdeep : ¬Room Γ.reading.depth (Json.obj
      [("a", .obj [("a", .obj [("a", .obj [("b", nested 123)])])]), ("c", .num n)]).height := by
    intro h
    have hle := h 127 rfl
    simp [Json.height, Json.heightOfMembers, height_nested] at hle
  obtain ⟨e, he⟩ := opened_of_too_deep hdeep
  exact ⟨_, e, hdoc, he⟩

/-- A double that the program has read may be written such that it reads another, beside the
    entry that is assigned; and nothing is read where the value that is assigned nests too deep. -/
theorem neighbour_respelled :
    let Γ := Command.noRecords Command.reading
    let doc := Command.region "\x7b\"a\":5e32,\"b\":1\x7d"
    let deep := Command.region "\x7b\"a\":\x7b\"a\":\x7b\"a\":\x7b\x7d\x7d\x7d,\"c\":1\x7d";
    (Γ.Diverge (Pointer.tokens ⟨"/b"⟩) (Pointer.tokens ⟨"/a"⟩) doc ∧ ∃ doc' y,
      Γ.assign doc ⟨"/b"⟩ (.int .i64 2) = (.ok (), doc') ∧
        Γ.Finds doc ⟨"/a"⟩ y ∧ ¬Γ.Finds doc' ⟨"/a"⟩ y) ∧
    Γ.Diverge (Pointer.tokens ⟨"/a/a/a/b"⟩) (Pointer.tokens ⟨"/c"⟩) deep ∧ ∃ doc' y,
      Γ.assign deep ⟨"/a/a/a/b"⟩ (.json (nested 123)) = (.ok (), doc') ∧
        Γ.Finds deep ⟨"/c"⟩ y ∧ ∀ z, ¬Γ.Finds doc' ⟨"/c"⟩ z := by
  intro Γ doc deep
  constructor
  · have hd : Γ.Diverge (Pointer.tokens ⟨"/b"⟩) (Pointer.tokens ⟨"/a"⟩) doc := by decide +kernel
    have hok : (Γ.assign doc ⟨"/b"⟩ (.int .i64 2)).1.isOk = true := by decide +kernel
    have hbefore : (Γ.seek doc ⟨"/a"⟩).toOption.map (·.asJson.text) =
        some "5.0000000000000004e+32" := by decide +kernel
    have hafter : (Γ.seek (Γ.assign doc ⟨"/b"⟩ (.int .i64 2)).2 ⟨"/a"⟩).toOption.map
        (·.asJson.text) = some "5e+32" := by decide +kernel
    obtain ⟨doc', hdoc⟩ := Attempt.done_of_isOk hok
    rw [hdoc] at hafter
    obtain ⟨y, hy, hlost⟩ := lost_of_ne hbefore hafter (by simp)
    exact ⟨hd, doc', y, hdoc, hy, hlost⟩
  · have hd : Γ.Diverge (Pointer.tokens ⟨"/a/a/a/b"⟩) (Pointer.tokens ⟨"/c"⟩) deep := by
      decide +kernel
    have hfound : (Γ.seek deep ⟨"/c"⟩).isOk = true := by decide +kernel
    have htokens : Pointer.tokens ⟨"/c"⟩ = [⟨"c"⟩] := by decide
    have hΓ : Γ.Plain := plain_of_records (by simp [Γ, Command.noRecords])
    obtain ⟨y, hy⟩ := finds_of_isOk hfound
    obtain ⟨k, e, hdoc, hnot⟩ := assign_too_deep
    refine ⟨hd, _, y, hdoc, hy, fun z hz => ?_⟩
    rw [finds_iff, seek_eq rfl, htokens] at hz
    obtain ⟨c, hc, -⟩ := (resolveTokens_cons_ok hΓ).1 hz
    obtain ⟨w, hw, -⟩ := select_eq_ok.1 hc
    cases hnot.symm.trans hw

end DocPointer.Schema
