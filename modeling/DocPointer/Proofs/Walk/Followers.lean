/-
  The three ways down to a promoted field.

  A walk that looks goes down the path of a field by `Schema.follow`, one that deletes by
  `Schema.prune`, and one that assigns by `Schema.embed`, which gives nil pointers targets.  They
  are three recursions, in which a pointer uses up no position of the path.

  A value conforms to a record if it is nil or that record, with all the fields that are declared,
  and what it embeds conforms likewise (`Conforms`).  Then there are two cases
  (`Conforms.follow_or_nilOn`):

  * no pointer on the path is nil, and all three lead to one slot (`embed_follow`, `prune_follow`);
  * one is, and there is nothing to look at or to delete.  An assign goes down in the value in
    which the nil optional pointers on the path have zero values as targets (`Allots.leads`), and
    beside the path that has the fields that were there, or zero values (`Allots.beside`).  In
    front of a nil that is no optional pointer, such as an empty holder, it stops
    (`Strands.stops`).

  * `agree`: both cases, for one path.
  * `followers_agree`: the fields of an index, and the walks by the tokens that name them.
-/
import DocPointer.Proofs.Walk.Absence
import DocPointer.Proofs.Walk.Furnishing
import DocPointer.Proofs.Walk.Passing
import DocPointer.Samples.Catalog

namespace DocPointer

/-- A value behind pointers that is put behind others. -/
theorem Val.retarget_assoc (u v w : Val) :
    (u.retarget v).retarget w = u.retarget (v.retarget w) := by
  induction u using Val.target.induct with
  | case1 u ih => exact congrArg ptr ih
  | case2 u ih => exact congrArg box ih
  | case3 u ih => exact congrArg held ih
  | case4 u hp hb hh =>
    have hu (x : Val) : u.retarget x = x := by rw [retarget] <;> assumption
    rw [hu, hu]

namespace Schema

open Samples

section
variable (Γ : Schema)

/-- Behind its pointers the value is nil, or a record `r` that has the fields it declares, and
    what it is declared to embed conforms. -/
inductive Conforms : String → Val → Prop where
  | nil {r : String} {v : Val} : Γ.node v.target = .nil → Conforms r v
  | record {r : String} {v : Val} {fields : List Val} :
      Γ.node v.target = .record r fields →
      (∀ i name tagged, Declares Γ.family r i name tagged → i < fields.length) →
      (∀ k s, Embeds Γ.family r k s → k < fields.length) →
      (∀ k s c, Embeds Γ.family r k s → fields[k]? = some c → Conforms s c) → Conforms r v

/-- `w` is `v` with targets for the nil optional pointers on the path of fields: zero values, in
    which the path is followed on. -/
inductive Allots : List Nat → Val → Val → Prop where
  | here {v : Val} : Allots [] v v
  | nil {i : Nat} {path : List Nat} {v w : Val} {t : Ty} :
      v.target = .nil t → Allots (i :: path) (Γ.zero t) w →
        Allots (i :: path) v (v.retarget (.ptr w))
  | field {i : Nat} {path : List Nat} {v c d : Val} {name : String} {fields : List Val} :
      Γ.node v.target = .record name fields → fields[i]? = some c → Allots path c d →
        Allots (i :: path) v (Γ.inlay d [i] v)

/-- On the path of fields there is a nil that is no optional pointer, as in an empty holder, in the
    value or in the zero values that its nil pointers get. -/
inductive Strands : List Nat → Val → Prop where
  | empty {i : Nat} {path : List Nat} {v : Val} :
      Γ.node v.target = .nil → (∀ t, v.target ≠ .nil t) → Strands (i :: path) v
  | nil {i : Nat} {path : List Nat} {v : Val} {t : Ty} :
      v.target = .nil t → Strands (i :: path) (Γ.zero t) → Strands (i :: path) v
  | field {i : Nat} {path : List Nat} {v c : Val} {name : String} {fields : List Val} :
      Γ.node v.target = .record name fields → fields[i]? = some c → Strands path c →
        Strands (i :: path) v

/-- At the record `v` the walks by the token `t` go down the path of fields. -/
structure GoesDown (t : Token) (path : List Nat) (v : Val) : Prop where
  /-- A resolve goes on at what it finds there, and stops if it finds nothing. -/
  resolves (redirect : Val → Pointer → Except Stop Val) (ts : List Token) :
    Γ.resolveTokens redirect (t :: ts) v =
      match Γ.follow path v with
      | some s => Γ.resolveTokens redirect ts s
      | none => .error ⟨.notFound, v.typeOf, .ofTokens (t :: ts)⟩
  deletes (redirect : Val → Pointer → Outcome) (ts : List Token) :
    Γ.deleteTokens redirect (t :: ts) v = Γ.prune (Γ.deleteTokens redirect ts) path v
  assigns (redirect : Val → Pointer → Val → Outcome) (ts : List Token) (x : Val) :
    Γ.assignTokens redirect (t :: ts) v x =
      Γ.embed (.ofTokens (t :: ts)) (Γ.assignTokens redirect ts · x) path v

/-- The three ways down the path of fields agree at the value. -/
structure Agree (path : List Nat) (v : Val) : Prop where
  /-- The one that looks leads to a slot just if no pointer on the path is nil. -/
  follows : (∃ s, Γ.follow path v = some s) ↔ ¬Γ.NilOn path v
  /-- So does the one that deletes. -/
  prunes : (∃ s back, ∀ g, Γ.prune g path v = (g s).inside back) ↔ ¬Γ.NilOn path v
  /-- All lead to one slot, and what is made of it is put there. -/
  slot {s : Val} : Γ.follow path v = some s → ∀ here g,
    Γ.prune g path v = (g s).inside (Γ.inlay · path v) ∧
      Γ.embed here g path v = (g s).inside (Γ.inlay · path v)
  /-- Behind a nil pointer there is nothing to look at, nor to delete. -/
  nothing : Γ.NilOn path v → Γ.follow path v = none ∧ ∀ g, Γ.prune g path v = .done v
  /-- An assign stops there in any case, or its slot is the one that the others would lead to
      if the nil optional pointers on the path had zero values as targets.  Beside the path
      are the fields that were there, or zero values. -/
  allots : Γ.NilOn path v → ∀ here,
    (∃ e, ∀ g, Γ.embed here g path v = (.error e, v)) ∨
      ∃ w s undo, Γ.Allots path v w ∧ Γ.follow path w = some s ∧ undo s = v ∧
        (∀ g, Γ.embed here g path v = (g s).within (Γ.inlay · path w) undo) ∧
        ∀ p i rest j, path = p ++ i :: rest → j ≠ i → ∀ c,
          Γ.follow (p ++ [j]) (Γ.inlay c path w) = Γ.delve (p ++ [j]) v
  /-- It stops in front of an empty holder, and leaves it empty. -/
  strands : Γ.Strands path v → ∀ here g,
    Γ.embed here g path v = (.error ⟨.notFound, .json, here⟩, v)

end

variable {Γ : Schema} {f : Val → Outcome} {here : Pointer} {v w c s : Val} {i : Nat}
  {path : List Nat} {shape : Shape} {ty : Ty} {name r : String} {fields : List Val}

/-! ## Pointers -/

/-- A new value is the zero value, with targets for its pointers. -/
theorem allocatingNew_eq (shape : Shape) (f : Val → Outcome) (t : Ty) :
    Γ.allocatingNew shape f t = Γ.allocating shape f (Γ.zero t) := by
  induction t with
  | box t ih =>
    rw [allocatingNew, ih]
    rfl
  | _ => rfl

/-- A nil pointer gets the zero value as its target, and is nil again if the change fails. -/
theorem embed_nil (hv : v.target = .nil ty) (here : Pointer) (f : Val → Outcome) (i : Nat)
    (path : List Nat) : Γ.embed here f (i :: path) v =
      (Γ.embed here f (i :: path) (Γ.zero ty)).within (fun u => v.retarget (.ptr u))
        fun u => v.retarget (Γ.cleared (.ptr u)) := by
  rw [embed, embed, allocating_target, hv, allocating, allocatingNew_eq]
  generalize Γ.allocating .map _ (Γ.zero ty) = out
  obtain ⟨_ | _, u⟩ := out <;> rfl

/-- What is behind the pointers of a value, in terms of the last of them. -/
theorem furnished_eq (shape : Shape) (v : Val) :
    Γ.furnished shape v =
      match v.target with
      | .nil t => Γ.furnishedNew shape t
      | .vacant => .json shape.container
      | w => w := by
  induction v using Val.target.induct with
  | case1 v ih | case2 v ih | case3 v ih => exact ih
  | case4 v hp hb hh =>
    cases v with
    | ptr v => exact absurd rfl (hp v)
    | box v => exact absurd rfl (hb v)
    | held v => exact absurd rfl (hh v)
    | _ => rfl

theorem furnished_of_record (hn : Γ.node v.target = .record name fields) (shape : Shape) :
    Γ.furnished shape v = v.target := by
  rw [furnished_eq]
  split
  · next t ht => simp [ht, node] at hn
  · next ht => simp [ht, node] at hn
  · rfl

theorem furnished_zero (shape : Shape) (t : Ty) :
    Γ.furnished shape (Γ.zero t) = Γ.furnishedNew shape t := by
  induction t with
  | box t ih => exact ih
  | _ => rfl

theorem delve_nil (hv : v.target = .nil ty) (i : Nat) (path : List Nat) :
    Γ.delve (i :: path) v = Γ.delve (i :: path) (Γ.zero ty) := by
  rw [delve, delve, furnished_zero, furnished_eq, hv]

/-- The zero value behind a pointer that becomes nil again. -/
theorem retarget_cleared (hv : v.target = .nil ty) :
    v.retarget (Γ.cleared (.ptr (Γ.zero ty))) = v := by
  rw [cleared, typeOf_zero, ← hv, Val.retarget_target]

/-- An inlay behind a new pointer. -/
theorem inlay_behind (c u : Val) (hi : Γ.follow (i :: path) w = some s) :
    Γ.inlay c (i :: path) (u.retarget (.ptr w)) = u.retarget (.ptr (Γ.inlay c (i :: path) w)) := by
  obtain ⟨name, fields, child, hn, hc, -⟩ := follow_cons.1 hi
  have hu : (u.retarget (.ptr w)).target = w.target := Val.target_retarget u (.ptr w)
  rw [inlay_cons hn hc, inlay_cons (by rw [hu, hn]) hc, Val.retarget_assoc, hu]
  rfl

/-! ## One field -/

section
variable (hn : Γ.node v.target = .record name fields) (hc : fields[i]? = some c)
include hn hc

theorem embed_field (here : Pointer) (f : Val → Outcome) (path : List Nat) :
    Γ.embed here f (i :: path) v = (Γ.embed here f path c).inside (Γ.inlay · [i] v) := by
  rw [embed, allocating_eq (by simp [hn])]
  simp only [hn, hc, inlay_cons hn hc]
  rfl

theorem follow_inlay_field (d : Val) (path : List Nat) :
    Γ.follow (i :: path) (Γ.inlay d [i] v) = Γ.follow path d := by
  obtain ⟨hi, -⟩ := List.getElem?_eq_some_iff.1 hc
  simp only [follow, node_inlay hn hc, List.getElem?_set_self hi]
  rfl

theorem inlay_inlay_field (c' d : Val) (path : List Nat) :
    Γ.inlay c' (i :: path) (Γ.inlay d [i] v) = Γ.inlay (Γ.inlay c' path d) [i] v := by
  obtain ⟨hi, -⟩ := List.getElem?_eq_some_iff.1 hc
  rw [inlay_cons (node_inlay hn hc d []) (List.getElem?_set_self hi), List.set_set,
    retarget_inlay hn hc, inlay_cons hn hc]
  rfl

end

/-! ## Nil pointers on the path -/

/-- Behind a nil pointer nothing is found. -/
theorem follow_of_nilOn (h : Γ.NilOn path v) : Γ.follow path v = none := by
  induction path generalizing v with
  | nil => exact h.elim
  | cons i path ih =>
    cases hf : Γ.follow (i :: path) v with
    | none => rfl
    | some s =>
      obtain ⟨name, fields, child, hn, hc, hs⟩ := follow_cons.1 hf
      simp only [NilOn, hn] at h
      obtain ⟨d, hd, hbelow⟩ := h
      cases hc.symm.trans hd
      exact absurd (hs.symm.trans (ih hbelow)) (Option.some_ne_none s)

theorem Conforms.node_record (h : Γ.Conforms r (.record name fields)) :
    Γ.node (.record name fields) = .record r fields := by
  cases h with
  | nil hn => exact absurd hn (recordNode_ne_nil name fields)
  | record hn =>
    cases eq_of_node_record hn
    exact hn

/-- **In a record that conforms, a route leads to a slot or to a nil pointer.** -/
theorem Conforms.follow_or_nilOn (hr : Route Γ.family r path) (hv : Γ.Conforms r v) :
    (∃ s, Γ.follow path v = some s) ∨ Γ.NilOn path v := by
  induction hr generalizing v with
  | @last r i name tagged hd =>
    cases hv with
    | nil hn => exact .inr (by simp only [NilOn, hn])
    | @record _ _ fields hn hdeclared _ _ =>
      have hi : i < fields.length := hdeclared i name tagged hd
      exact .inl ⟨fields[i], follow_cons.2 ⟨r, fields, _, hn, List.getElem?_eq_getElem hi, rfl⟩⟩
  | @cons r s k path he _ ih =>
    cases hv with
    | nil hn => exact .inr (by simp only [NilOn, hn])
    | @record _ _ fields hn _ hembeds hbelow =>
      obtain ⟨c, hc⟩ : ∃ c, fields[k]? = some c := ⟨_, List.getElem?_eq_getElem (hembeds k s he)⟩
      rcases ih (hbelow k s c he hc) with ⟨x, hx⟩ | hnil
      · exact .inl ⟨x, follow_cons.2 ⟨r, fields, _, hn, hc, hx⟩⟩
      · refine .inr ?_
        simp only [NilOn, hn]
        exact ⟨_, hc, hnil⟩

/-! ## Targets for nil pointers -/

/-- **An assign goes down in the value with the targets**, and if it fails at the slot, nothing of
    them is left. -/
theorem Allots.leads (h : Γ.Allots path v w) :
    ∃ s undo, Γ.follow path w = some s ∧ undo s = v ∧
      ∀ here g, Γ.embed here g path v = (g s).within (Γ.inlay · path w) undo := by
  induction h with
  | @here v =>
    refine ⟨v, id, rfl, rfl, fun here g => ?_⟩
    rw [embed]
    obtain ⟨_ | _, u⟩ := g v <;> rfl
  | @nil i path v w t hv _ ih =>
    obtain ⟨s, undo, hs, hundo, hembed⟩ := ih
    refine ⟨s, fun u => v.retarget (Γ.cleared (.ptr (undo u))), ?_, ?_, ?_⟩
    · rw [follow_of_target (Val.target_retarget v (.ptr w))]
      exact hs
    · simp only [hundo, retarget_cleared hv]
    · intro here g
      rw [embed_nil hv, hembed]
      simp only [inlay_behind _ v hs]
      obtain ⟨_ | _, u⟩ := g s <;> rfl
  | @field i path v c d name fields hn hc _ ih =>
    obtain ⟨s, undo, hs, hundo, hembed⟩ := ih
    refine ⟨s, fun u => Γ.inlay (undo u) [i] v, ?_, ?_, ?_⟩
    · rw [follow_inlay_field hn hc, hs]
    · simp only [hundo]
      exact inlay_self (follow_cons.2 ⟨name, fields, c, hn, hc, rfl⟩)
    · intro here g
      rw [embed_field hn hc, hembed]
      simp only [inlay_inlay_field hn hc]
      obtain ⟨_ | _, u⟩ := g s <;> rfl

/-- Zero values have targets if a pointer to them has. -/
theorem exists_allots_zero (hn : Γ.node (Γ.furnishedNew .map ty) = .record name fields)
    (hc : fields[i]? = some c) (hd : Γ.Allots path c s) :
    ∃ w, Γ.Allots (i :: path) (Γ.zero ty) w := by
  induction ty with
  | opt t ih =>
    obtain ⟨w, hw⟩ := ih hn
    exact ⟨_, .nil rfl hw⟩
  | box t ih =>
    obtain ⟨w, hw⟩ := ih hn
    cases hw with
    | nil ht hw => exact ⟨_, .nil ht hw⟩
    | field hn hc hd => exact ⟨_, .field hn hc hd⟩
  | record r => exact ⟨_, .field hn hc hd⟩
  | _ => cases hn

/-- Where a slot would be found behind targets, the pointers get them. -/
theorem exists_allots (h : Γ.delve path v = some s) : ∃ w, Γ.Allots path v w := by
  induction path generalizing v with
  | nil => exact ⟨v, .here⟩
  | cons i path ih =>
    rw [delve] at h
    split at h
    · next name fields hn =>
      obtain ⟨c, hc, hs⟩ := Option.bind_eq_some_iff.1 h
      obtain ⟨d, hd⟩ := ih hs
      rw [furnished_eq] at hn
      split at hn
      · next t ht =>
        obtain ⟨w, hw⟩ := exists_allots_zero hn hc hd
        exact ⟨_, .nil ht hw⟩
      · cases hn
      · exact ⟨_, .field hn hc hd⟩
    · cases h

/-- Beside the path of fields are the fields that were there, or those of the zero values,
    whatever is put at its end. -/
theorem Allots.beside (h : Γ.Allots path v w) (hs : Γ.follow path w = some s) {p rest : List Nat}
    {j : Nat} (hp : path = p ++ i :: rest) (hj : j ≠ i) (c : Val) :
    Γ.follow (p ++ [j]) (Γ.inlay c path w) = Γ.delve (p ++ [j]) v := by
  induction h generalizing p with
  | here => exact absurd hp.symm (by simp)
  | @nil k path v w t hv _ ih =>
    have hw : Γ.follow (k :: path) w = some s :=
      (follow_of_target (Val.target_retarget v (.ptr w)) k path).symm.trans hs
    obtain ⟨m, q, hq⟩ : ∃ m q, p ++ [j] = m :: q := by cases p <;> simp
    have hzero := ih hw hp
    rw [hq] at hzero ⊢
    rw [inlay_behind c v hw, follow_of_target (Val.target_retarget v _), delve_nil hv, ← hzero]
    rfl
  | @field k path v d u name fields hn hd _ ih =>
    rw [follow_inlay_field hn hd] at hs
    rw [inlay_inlay_field hn hd]
    cases p with
    | nil =>
      obtain ⟨rfl, rfl⟩ := List.cons.inj hp
      simp only [List.nil_append, follow, delve, node_inlay hn hd, furnished_of_record hn, hn,
        List.getElem?_set_ne (Ne.symm hj)]
    | cons k' p =>
      obtain ⟨rfl, rfl⟩ := List.cons.inj hp
      rw [List.cons_append, follow_inlay_field hn hd, ih hs rfl, delve, furnished_of_record hn]
      simp only [hn, hd, Option.bind_some]

/-! ## Where an assign stops -/

/-- Where no slot would be found behind targets, an assign stops. -/
theorem embed_stops (h : Γ.delve path v = none) (here : Pointer) :
    ∃ e, ∀ g, Γ.embed here g path v = (.error e, v) := by
  cases embed_step (Γ := Γ) here path v with
  | stops e he => exact ⟨e, he⟩
  | ends _ _ _ hfinal => exact hfinal.elim
  | leads P hP =>
    have hgoes := embed_goes (Γ := Γ) here path v
    rw [h] at hgoes
    cases hgoes with
    | stops e u _ he => cases (he .done).symm.trans (hP .done)

/-- **An assign stops in front of an empty holder**, whatever was to be done below, and it stays
    empty. -/
theorem Strands.stops (h : Γ.Strands path v) (here : Pointer) (g : Val → Outcome) :
    Γ.embed here g path v = (.error ⟨.notFound, .json, here⟩, v) := by
  induction h with
  | @empty i path v hn hne =>
    have hback : v.retarget v.target = v := v.retarget_target
    rw [embed, allocating_target]
    rcases eq_of_node_nil hn with ⟨t, hv⟩ | hv | hv
    · exact absurd hv (hne t)
    all_goals
      rw [hv] at hback ⊢
      exact congrArg (Prod.mk _) hback
  | @nil i path v t hv _ ih =>
    rw [embed_nil hv, ih]
    exact congrArg (Prod.mk _) (retarget_cleared hv)
  | @field i path v c name fields hn hc _ ih =>
    rw [embed_field hn hc, ih]
    exact congrArg (Prod.mk _) (inlay_self (follow_cons.2 ⟨name, fields, c, hn, hc, rfl⟩))

/-! ## Walks -/

/-- **At a record without hooks the walks go down the path of the field** that their token names. -/
theorem goesDown {t : Token} (hn : Γ.node v = .record name fields) (hhooks : Γ.hooks v = .silent)
    (hp : Γ.fieldPath name t = .ok path) : Γ.GoesDown t path v := by
  obtain rfl := eq_of_node_record hn
  constructor
  · intro redirect ts
    rw [resolveTokens]
    simp only [Val.target, hhooks, Hooks.silent, select, opened, Except.bind, selectBare, hn, hp]
    cases Γ.follow path (.record name fields) <;> rfl
  · intro redirect ts
    rw [deleteTokens, Val.onTarget]
    · simp only [deleteSteered, hhooks, Hooks.silent, remove, removeBare, hn, hp]
    all_goals simp
  · intro redirect ts x
    rw [assignTokens, allocating]
    · simp only [assignSteered, hhooks, Hooks.silent, descend]
      exact descendBare_embed hn hp _ _
    all_goals simp

/-- **The three ways down a path of fields agree** where it leads to a slot or to a nil pointer. -/
theorem agree (h : (∃ s, Γ.follow path v = some s) ∨ Γ.NilOn path v) : Γ.Agree path v := by
  have hnot : (∃ s, Γ.follow path v = some s) ↔ ¬Γ.NilOn path v := by
    constructor
    · rintro ⟨s, hs⟩ hnil
      cases hs.symm.trans (follow_of_nilOn hnil)
    · exact h.resolve_right
  refine ⟨hnot, ?_, ?_, ?_, ?_, fun hs here g => hs.stops here g⟩
  · constructor
    · rintro ⟨s, back, hprune⟩ hnil
      -- a change that fails at the slot is not complete
      have hdone := prune_of_follow (f := fun u => .refuse .root u .notFound) (follow_of_nilOn hnil)
      cases (hprune _).symm.trans hdone
    · intro hnil
      obtain ⟨s, hs⟩ := hnot.2 hnil
      exact ⟨s, _, prune_follow hs⟩
  · intro s hs here g
    exact ⟨prune_follow hs g, embed_follow hs here g⟩
  · intro hnil
    have hnone := follow_of_nilOn hnil
    exact ⟨hnone, fun g => prune_of_follow hnone⟩
  · intro hnil here
    cases hd : Γ.delve path v with
    | none => exact .inl (embed_stops hd here)
    | some d =>
      obtain ⟨w, hw⟩ := exists_allots hd
      obtain ⟨s, undo, hs, hundo, hembed⟩ := hw.leads
      exact .inr ⟨w, s, undo, hw, hs, hundo, hembed here,
        fun p i rest j hp hj c => hw.beside hs hp hj c⟩

/-- **At a record without hooks that conforms, the three ways down to a promoted field agree**,
    and the walks by each token that names the field go down them. -/
theorem followers_agree (hnames : (Members.names Γ.records).Nodup)
    (hhooks : (Γ.decl name).hooks = .silent) (hv : Γ.Conforms name (.record name fields))
    {f : Field} (hf : f ∈ (Γ.fieldIndex name).fields) :
    Γ.Agree f.index (.record name fields) ∧
      ∀ t : Token, (Γ.fieldIndex name).lookup t.decoded = .field f →
        Γ.GoesDown t f.index (.record name fields) := by
  have hfamily : Members.names Γ.family = Members.names Γ.records := List.map_map ..
  constructor
  · exact agree (hv.follow_or_nilOn (route_of_mem_build (hfamily ▸ hnames) hf))
  · intro t ht
    have hp : Γ.fieldPath name t = .ok f.index := by simp only [fieldPath, ht]
    exact goesDown hv.node_record hhooks hp

/-! ## A record with nil embeddings -/

/-- Boats have a hull behind an optional and an owning pointer, and a mast in a holder. -/
def boats : Schema :=
  let Γ : Schema := ⟨[], ⟨none, .nearest⟩, 8⟩
  let Γ := declareParts Γ "Hull" [
    tagged "beam" i64 "Beam" "beam",
    tagged "draft" i64 "Draft" "draft"]
  let Γ := declareParts Γ "Mast" [tagged "height" i64 "Height" "height"]
  declareParts Γ "Boat" [
    embedding "hull" (.opt (.box (.record "Hull"))) "Hull" "Hull",
    embedding "mast" .holder "Mast" "Mast"]

/-- A boat without anything. -/
def boat : Val := boats.zero (.record "Boat")

theorem conforms_boat : boats.Conforms "Boat" boat := by
  have hlength : ∀ fs ∈ Members.get? "Boat" boats.family, fs.length = 2 := by decide +kernel
  have hboat : boats.node boat.target =
      .record "Boat" [.nil (.box (.record "Hull")), .vacant] := rfl
  refine .record hboat ?_ ?_ ?_
  · rintro i name tagged ⟨fs, d, hfs, hd, -⟩
    exact Nat.lt_of_lt_of_eq (List.getElem?_eq_some_iff.1 hd).1 (hlength fs hfs)
  · rintro k s ⟨fs, d, hfs, hd, -⟩
    exact Nat.lt_of_lt_of_eq (List.getElem?_eq_some_iff.1 hd).1 (hlength fs hfs)
  · rintro k s c - hc
    rcases k with _ | _ | k
    · cases hc
      exact .nil rfl
    · cases hc
      exact .nil rfl
    · cases hc

/-- A beam is not found and not deleted from a boat without a hull, and a beam that is assigned
    makes a hull without draft.  A height has nowhere to go. -/
theorem boat_followers :
    boats.Conforms "Boat" boat ∧
    (∀ redirect, boats.resolveTokens redirect [⟨"beam"⟩] boat =
      .error ⟨.notFound, .record "Boat", .ofTokens [⟨"beam"⟩]⟩) ∧
    (∀ redirect, boats.deleteTokens redirect [⟨"beam"⟩] boat = .done boat) ∧
    (∀ redirect, boats.assignTokens redirect [⟨"beam"⟩] boat (.int .i64 4) =
      .done (.record "Boat"
        [.ptr (.box (.record "Hull" [.int .i64 4, .int .i64 0])), .vacant])) ∧
    ∀ redirect x, boats.assignTokens redirect [⟨"height"⟩] boat x =
      (.error ⟨.notFound, .json, .ofTokens [⟨"height"⟩]⟩, boat) := by
  have hnames : (Members.names boats.records).Nodup := by decide
  have hfields : (boats.fieldIndex "Boat").fields =
      [⟨"beam", true, [0, 0]⟩, ⟨"draft", true, [0, 1]⟩, ⟨"height", true, [1, 0]⟩] := by
    decide +kernel
  obtain ⟨hbeam, hbeamToken⟩ := followers_agree hnames rfl conforms_boat
    (f := ⟨"beam", true, [0, 0]⟩) (by simp [hfields])
  obtain ⟨hheight, hheightToken⟩ := followers_agree hnames rfl conforms_boat
    (f := ⟨"height", true, [1, 0]⟩) (by simp [hfields])
  have hdown := hbeamToken ⟨"beam"⟩ (by decide +kernel)
  have hdown' := hheightToken ⟨"height"⟩ (by decide +kernel)
  have hnil : boats.NilOn [0, 0] boat := by decide +kernel
  have hstrands : boats.Strands [1, 0] boat :=
    .field (c := .vacant) rfl rfl (.empty rfl (by rintro t ⟨⟩))
  obtain ⟨hnone, hdelete⟩ := hbeam.nothing hnil
  refine ⟨conforms_boat, ?_, ?_, ?_, ?_⟩
  · intro redirect
    have hresolve := hdown.resolves redirect []
    rw [hnone] at hresolve
    exact hresolve
  · intro redirect
    exact (hdown.deletes redirect []).trans (hdelete _)
  · intro redirect
    exact (hdown.assigns redirect [] _).trans rfl
  · intro redirect x
    exact (hdown'.assigns redirect [] x).trans (hheight.strands hstrands _ _)

end Schema

end DocPointer
