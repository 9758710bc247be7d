/-
  Walks past hooks that yield.

  Where the hooks that a walk asks leave it to itself (`Yields`, for what the call is to do), it
  takes its tokens one by one, whatever hooks there are otherwise, and however the records
  present themselves (`Passes`).  What is done to the value that it reaches is done to the
  document: if it works, the new value is put in its place, and if it fails, what it left is
  (`Schema.recover`), but regions on the way have their bytes again.

  * `Passes.resolveTokens`, `Passes.assignTokens` and `Passes.deleteTokens`: by induction on the
    tokens, from one step behind pointers or in a region (`allocating_select`,
    `onTarget_select`).
-/
import DocPointer.Proofs.Walk.Putting

namespace DocPointer

/-- What a call is to do where its pointer leads. -/
inductive Errand where
  | find
  | assign (x : Val)
  | delete

namespace Schema

section
variable (Γ : Schema)

/-- The hooks of `v` leave a walk with the pointer `here` to itself, and `v` as it is. -/
def Yields (v : Val) (here : Pointer) : Errand → Prop
  | .find => (Γ.hooks v).lookup v here = .yields
  | .assign x => (Γ.hooks v).assign v here x = .yields v x ∧
      (Γ.hooks v).navigate .assigning v here = .yields v
  | .delete => (Γ.hooks v).delete v here = .yields v () ∧
      (Γ.hooks v).navigate .deleting v here = .yields v

/-- The tokens `ts`, with `us` behind them, lead from `v` to `w`, past hooks that yield. -/
inductive Passes (e : Errand) (us : List Token) : List Token → Val → Val → Prop where
  | here {v : Val} : Passes e us [] v v
  | step {t : Token} {ts : List Token} {v c w : Val} :
      Γ.Yields v.target (.ofTokens (t :: ts ++ us)) e → Γ.select t v = .ok c →
      Passes e us ts c w → Passes e us (t :: ts) v w

/-- The value with `y`, which a change that failed has left, in place of what a list of tokens
    leads to.  A region on the way has its bytes again. -/
def recover : List Token → Val → Val → Val
  | [], _, y => y
  | t :: ts, v, y =>
    match v.target with
    | .raw _ => v
    | _ =>
      match Γ.select t v with
      | .ok c => Γ.lodge t v (recover ts c y)
      | .error _ => v

end

variable {Γ : Schema} {e : Errand} {t : Token} {ts us : List Token} {v w c x : Val} {a : Address}
  {f g : Val → Outcome} {here : Pointer}

/-! ## One step -/

theorem recover_of_raw {bytes : ByteArray} (hv : v.target = .raw bytes) (ts : List Token)
    (y : Val) : Γ.recover (t :: ts) v y = v := by
  simp only [recover, hv]

theorem recover_of_ne_raw (hr : ∀ bytes, v.target ≠ .raw bytes) (h : Γ.select t v = .ok c)
    (ts : List Token) (y : Val) :
    Γ.recover (t :: ts) v y = Γ.lodge t v (Γ.recover ts c y) := by
  rw [recover, h]
  split
  · next bytes hv => exact absurd hv (hr bytes)
  · rfl

theorem within_here (v : Val) (out : Outcome) :
    out.within (Γ.put [] v) (Γ.recover [] v) = out := by
  obtain ⟨_ | _, y⟩ := out <;> rfl

/-- What a part is put back as is put back in the value around it. -/
theorem within_put (h : Γ.select t v = .ok c) (out : Outcome) (ts : List Token) :
    (out.within (Γ.put ts c) (Γ.recover ts c)).within (Γ.put [t] v) (Γ.recover [t] v) =
      out.within (Γ.put (t :: ts) v) (Γ.recover (t :: ts) v) := by
  obtain ⟨_ | _, y⟩ := out
  · show (Except.error _, Γ.recover [t] v (Γ.recover ts c y)) = (_, Γ.recover (t :: ts) v y)
    cases hv : v.target with
    | raw bytes => rw [recover_of_raw hv, recover_of_raw hv]
    | _ =>
      have hr : ∀ bytes, v.target ≠ .raw bytes := by simp [hv]
      rw [recover_of_ne_raw hr h, recover_of_ne_raw hr h]
      rfl
  · show (Except.ok _, Γ.put [t] v (Γ.put ts c y)) = (_, Γ.put (t :: ts) v y)
    rw [put_cons h, put_cons h]
    rfl

section
variable {v₀ : Val} (h : Γ.select t v = .ok c) (ha : Γ.addressBare? t v₀ = some a) (out : Outcome)
include h ha

/-- A change of the part is one behind the pointers of the value. -/
theorem inside_retarget (hr : ∀ bytes, v.target ≠ .raw bytes) (ho : Γ.opened v = .ok v₀) :
    (out.inside (Γ.putAt a v₀)).inside v.retarget =
      out.within (Γ.put [t] v) (Γ.recover [t] v) := by
  obtain ⟨r, y⟩ := out
  have hlodge : v.retarget (Γ.putAt a v₀ y) = Γ.lodge t v y := by
    rw [lodge_eq ho ha, Val.enclose_of_ne_raw hr]
  cases r with
  | error s => exact congrArg (Prod.mk _) (hlodge.trans (recover_of_ne_raw hr h [] y).symm)
  | ok u => exact congrArg (Prod.mk _) (hlodge.trans (put_cons h [] y).symm)

/-- A change of the part is one in the region that the value leads to. -/
theorem within_region {bytes : ByteArray} (hv : v.target = .raw bytes)
    (ho : Γ.opened v = .ok v₀) :
    Attempt.inside (Attempt.within (out.inside (Γ.putAt a v₀)) (fun u => .raw u.asJson.toBytes)
      fun _ => .raw bytes) v.retarget = out.within (Γ.put [t] v) (Γ.recover [t] v) := by
  obtain ⟨r, y⟩ := out
  cases r with
  | error s =>
    have hback : v.retarget (.raw bytes) = v := hv ▸ v.retarget_target
    exact congrArg (Prod.mk _) (hback.trans (recover_of_raw hv [] y).symm)
  | ok u =>
    have hlodge : v.retarget (.raw (Γ.putAt a v₀ y).asJson.toBytes) = Γ.lodge t v y := by
      rw [lodge_eq ho ha, Val.enclose_of_raw hv]
    exact congrArg (Prod.mk _) (hlodge.trans (put_cons h [] y).symm)

end

section
variable (h : Γ.select t v = .ok c) {F : Val → Outcome} (here : Pointer)
include h

/-- An assign goes down to a part that a token selects, behind pointers or in a region. -/
theorem allocating_select (hF : F v.target = Γ.descend here t f v.target) (shape : Shape) :
    Γ.allocating shape F v = (f c).within (Γ.put [t] v) (Γ.recover [t] v) := by
  obtain ⟨v₀, ho, hc⟩ := select_eq_ok.1 h
  obtain ⟨a, ha⟩ := lies_of_selectBare hc
  rcases opened_cases ho with ⟨rfl, hr⟩ | ⟨bytes, j, hv, he, hj, rfl⟩
  · have hdescend : Γ.descend here t f v.target = Γ.descendBare here t f v.target := by
      cases hv : v.target with
      | raw bytes => exact absurd hv (hr bytes)
      | json j => exact descendJson_eq (hv ▸ hc) here f
      | _ => rfl
    rw [allocating_eq (node_ne_nil_of_selectBare hc), hF, hdescend, ha.assigns]
    exact inside_retarget h ha.address (f c) hr ho
  · rw [allocating_eq (by rw [hv]; nofun), hF, hv, descend, regionValue?_eq he, hj]
    dsimp only
    rw [descendJson_eq hc, ha.assigns]
    exact within_region h ha.address (f c) hv ho

/-- So does a delete that goes on. -/
theorem onTarget_select (hF : F v.target = Γ.remove here t false f v.target) :
    v.onTarget F = (f c).within (Γ.put [t] v) (Γ.recover [t] v) := by
  obtain ⟨v₀, ho, hc⟩ := select_eq_ok.1 h
  obtain ⟨a, ha⟩ := lies_of_selectBare hc
  rcases opened_cases ho with ⟨rfl, hr⟩ | ⟨bytes, j, hv, he, hj, rfl⟩
  · rw [onTarget_eq, hF, remove_eq hr, ha.deletes]
    exact inside_retarget h ha.address (f c) hr ho
  · rw [onTarget_eq, hF, hv, remove, he, regionValue?_eq he, hj, if_neg Bool.false_ne_true]
    dsimp only
    rw [ha.deletes]
    exact within_region h ha.address (f c) hv ho

end

/-! ## Walks -/

/-- A walk that looks takes the tokens one by one. -/
theorem Passes.resolveTokens (h : Γ.Passes .find us ts v w)
    (redirect : Val → Pointer → Except Stop Val) :
    Γ.resolveTokens redirect (ts ++ us) v = Γ.resolveTokens redirect us w := by
  induction h with
  | here => rfl
  | @step t ts v c w hy hs _ ih =>
    have hlookup : (Γ.hooks v.target).lookup v.target (.ofTokens (t :: ts ++ us)) = .yields := hy
    rw [List.cons_append, Schema.resolveTokens]
    simp only [← List.cons_append, hlookup, hs]
    exact ih

/-- **So does an assign**, and what it makes of the value at the end is put in its place. -/
theorem Passes.assignTokens (h : Γ.Passes (.assign x) us ts v w)
    (redirect : Val → Pointer → Val → Outcome) :
    Γ.assignTokens redirect (ts ++ us) v x =
      (Γ.assignTokens redirect us w x).within (Γ.put ts v) (Γ.recover ts v) := by
  induction h with
  | here => exact (within_here _ _).symm
  | @step t ts v c w hy hs _ ih =>
    rw [List.cons_append, Schema.assignTokens]
    rw [allocating_select (f := (Γ.assignTokens redirect (ts ++ us) · x)) hs
      (.ofTokens (t :: ts ++ us)), ih, within_put hs]
    simp only [assignSteered, ← List.cons_append, hy.1, hy.2]

/-- **So does a delete.** -/
theorem Passes.deleteTokens (h : Γ.Passes .delete us ts v w) (hus : us ≠ [])
    (redirect : Val → Pointer → Outcome) :
    Γ.deleteTokens redirect (ts ++ us) v =
      (Γ.deleteTokens redirect us w).within (Γ.put ts v) (Γ.recover ts v) := by
  induction h with
  | here => exact (within_here _ _).symm
  | @step t ts v c w hy hs _ ih =>
    have hlast : (ts ++ us).isEmpty = false := by simp [hus]
    rw [List.cons_append, Schema.deleteTokens]
    rw [onTarget_select (f := Γ.deleteTokens redirect (ts ++ us)) hs (.ofTokens (t :: ts ++ us)),
      ih, within_put hs]
    simp only [deleteSteered, ← List.cons_append, hy.1, hy.2, hlast]

/-! ## Regions and pointers -/

/-- Where no region is on the way, a change that failed leaves what it left in its place. -/
theorem Passes.recover_eq (h : Γ.Passes e us ts v w) (hplain : ∀ bytes, ¬Γ.Enters ts v bytes) :
    Γ.recover ts v = Γ.put ts v := by
  induction h with
  | here => rfl
  | @step t ts v c w _ hs _ ih =>
    have hr (bytes : ByteArray) (hb : v.target = .raw bytes) : False := hplain bytes (.here hb)
    funext y
    rw [recover_of_ne_raw hr hs, put_cons hs, ih fun bytes hb => hplain bytes (.later hs hb)]

/-- A region that is entered behind the tokens of a walk is entered on it. -/
theorem Passes.enters (h : Γ.Passes e us ts v w) {vs : List Token} {bytes : ByteArray}
    (hw : Γ.Enters vs w bytes) : Γ.Enters (ts ++ vs) v bytes := by
  induction h with
  | here => exact hw
  | step _ hs _ ih => exact .later hs (ih hw)

/-- A change that left what was there leaves the value as it was. -/
theorem Passes.recover_self (h : Γ.Passes e us ts v w) : Γ.recover ts v w = v := by
  induction h with
  | here => rfl
  | @step t ts v c w _ hs _ ih =>
    obtain ⟨v₀, ho, hc⟩ := select_eq_ok.1 hs
    obtain ⟨a, ha⟩ := lies_of_selectBare hc
    rcases opened_cases ho with ⟨rfl, hr⟩ | ⟨bytes, j, hv, -, -, -⟩
    · rw [recover_of_ne_raw hr hs, ih, lodge_eq ho ha.address, ha.putAt_self,
        Val.enclose_of_ne_raw hr, Val.retarget_target]
    · exact recover_of_raw hv _ _

section
variable (hts : ts = [] → v.target = v)
include hts

/-- A token is looked up behind pointers. -/
theorem resolveTokens_target (redirect : Val → Pointer → Except Stop Val) :
    Γ.resolveTokens redirect ts v.target = Γ.resolveTokens redirect ts v := by
  cases ts with
  | nil => rw [hts rfl]
  | cons t ts => simp only [resolveTokens, select, opened, target_target]

theorem deleteTokens_target (redirect : Val → Pointer → Outcome) :
    Γ.deleteTokens redirect ts v = (Γ.deleteTokens redirect ts v.target).inside v.retarget := by
  have hid : v.target.retarget = id := funext (Val.retarget_of_target (target_target v))
  cases ts with
  | nil =>
    rw [hts rfl] at hid ⊢
    rw [hid]
    rfl
  | cons t ts =>
    rw [deleteTokens, deleteTokens, onTarget_eq, onTarget_eq _ v.target, target_target, hid]
    rfl

theorem assignTokens_target (redirect : Val → Pointer → Val → Outcome)
    (hn : Γ.node v.target ≠ .nil) (x : Val) :
    Γ.assignTokens redirect ts v x = (Γ.assignTokens redirect ts v.target x).inside v.retarget := by
  have hid : v.target.retarget = id := funext (Val.retarget_of_target (target_target v))
  cases ts with
  | nil =>
    rw [hts rfl] at hid ⊢
    rw [hid]
    rfl
  | cons t ts =>
    have hn' : Γ.node v.target.target ≠ .nil := by rwa [target_target]
    rw [assignTokens, assignTokens, allocating_eq hn, allocating_eq hn', target_target, hid]
    rfl

end

end Schema

end DocPointer
