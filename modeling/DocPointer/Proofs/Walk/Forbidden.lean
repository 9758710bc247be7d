/-
  What calls report of fields that may not be addressed.

  A call that comes to a record whose index does not list the name in front fails there, and
  nothing is changed (`Meets.resolve`, `Meets.assign`, `Meets.delete`).  It reports an unexported
  field if the name is the identifier of a withheld field, and a missing value otherwise, also for
  the name in the tag of a withheld field.

  * `withheld_reported`: what the index answers, and what calls report.
-/
import DocPointer.Proofs.Fields.Withheld
import DocPointer.Proofs.Walk.Passing
import DocPointer.Samples.Safes

namespace DocPointer.Schema

open Samples

section
variable (Γ : Schema)

/-- A call comes to the record `r` with the tokens `t` and `us` to go, past hooks that yield, and
    the hooks of the record yield too. -/
def Meets (e : Errand) (doc : Val) (p : Pointer) (r : String) (t : Token) (us : List Token) :
    Prop :=
  p.validate = .ok () ∧ ∃ ts v fields, p.tokens = ts ++ t :: us ∧ Γ.Passes e (t :: us) ts doc v ∧
    Γ.Yields v.target (.ofTokens (t :: us)) e ∧ Γ.node v.target = .record r fields

/-- The index of the record `r` answers `answer` to a name, and calls that come to such a record
    with the name fail there for the cause `fault` and change nothing. -/
structure Reports (r name : String) (answer : FieldLookup) (fault : Fault) : Prop where
  lookup : (Γ.fieldIndex r).lookup name = answer
  resolve {doc : Val} {p : Pointer} {t : Token} {us : List Token} :
    Γ.Meets .find doc p r t us → t.decoded = name → ∀ dst, Γ.resolve doc dst p =
      (.error ⟨.resolving, p, ⟨fault, .record r, .ofTokens (t :: us)⟩⟩, dst)
  assign {doc x : Val} {p : Pointer} {t : Token} {us : List Token} :
    Γ.Meets (.assign x) doc p r t us → t.decoded = name → Γ.assign doc p x =
      (.error ⟨.assigning, p, ⟨fault, .record r, .ofTokens (t :: us)⟩⟩, doc)
  delete {doc : Val} {p : Pointer} {t : Token} {us : List Token} :
    Γ.Meets .delete doc p r t us → t.decoded = name → Γ.delete doc p =
      (.error ⟨.deleting, p, ⟨fault, .record r, .ofTokens (t :: us)⟩⟩, doc)

end

variable {Γ : Schema} {doc v x : Val} {p : Pointer} {r : String} {t : Token} {ts us : List Token}
  {fault : Fault} {fields : List Val}

/-! ## One step -/

theorem opened_of_record (hn : Γ.node v.target = .record r fields) :
    Γ.opened v = .ok v.target := by
  rw [opened, eq_of_node_record hn]

section
variable (hn : Γ.node v.target = .record r fields) (hf : Γ.fieldPath r t = .error fault)
include hn hf

theorem resolveTokens_barred (hy : Γ.Yields v.target (.ofTokens (t :: us)) .find)
    (redirect : Val → Pointer → Except Stop Val) : Γ.resolveTokens redirect (t :: us) v =
      .error ⟨fault, .record r, .ofTokens (t :: us)⟩ := by
  have hlookup : (Γ.hooks v.target).lookup v.target (.ofTokens (t :: us)) = .yields := hy
  have hselect : Γ.select t v = .error ⟨fault, .record r⟩ := by
    rw [select, opened_of_record hn]
    simp only [Except.bind, selectBare, hn, hf]
    rw [eq_of_node_record hn, Val.typeOf]
  rw [resolveTokens]
  simp only [hlookup, hselect]
  rfl

theorem assignTokens_barred (hy : Γ.Yields v.target (.ofTokens (t :: us)) (.assign x))
    (redirect : Val → Pointer → Val → Outcome) : Γ.assignTokens redirect (t :: us) v x =
      (.error ⟨fault, .record r, .ofTokens (t :: us)⟩, v) := by
  have htarget : v.target = .record r fields := eq_of_node_record hn
  have hself : v.retarget (.record r fields) = v := htarget ▸ v.retarget_target
  have hdescend (f : Val → Outcome) : Γ.descend (.ofTokens (t :: us)) t f (.record r fields) =
      .refuse (.ofTokens (t :: us)) (.record r fields) fault := by
    rw [htarget] at hn
    simp only [descend, descendBare, hn, hf]
  rw [assignTokens, allocating_eq (by simp [hn])]
  rw [htarget] at hy ⊢
  simp only [assignSteered, hy.1, hy.2, hdescend]
  exact congrArg (Prod.mk _) hself

theorem deleteTokens_barred (hy : Γ.Yields v.target (.ofTokens (t :: us)) .delete)
    (redirect : Val → Pointer → Outcome) : Γ.deleteTokens redirect (t :: us) v =
      (.error ⟨fault, .record r, .ofTokens (t :: us)⟩, v) := by
  have htarget : v.target = .record r fields := eq_of_node_record hn
  have hself : v.retarget (.record r fields) = v := htarget ▸ v.retarget_target
  have hremove (f : Val → Outcome) : Γ.remove (.ofTokens (t :: us)) t us.isEmpty f
      (.record r fields) = .refuse (.ofTokens (t :: us)) (.record r fields) fault := by
    rw [htarget] at hn
    simp only [remove, removeBare, hn, hf]
  rw [deleteTokens, onTarget_eq]
  rw [htarget] at hy ⊢
  simp only [deleteSteered, hy.1, hy.2, hremove]
  exact congrArg (Prod.mk _) hself

end

/-! ## Calls -/

namespace Meets

section
variable (hf : Γ.fieldPath r t = .error fault)
include hf

/-- **A call that comes to a record without the field fails there**, and changes nothing. -/
theorem resolve (h : Γ.Meets .find doc p r t us) (dst : Val) : Γ.resolve doc dst p =
    (.error ⟨.resolving, p, ⟨fault, .record r, .ofTokens (t :: us)⟩⟩, dst) := by
  obtain ⟨hp, ts, v, fields, hts, hpasses, hy, hn⟩ := h
  rw [resolve_eq hp, seek_eq hp, hts, hpasses.resolveTokens, resolveTokens_barred hn hf hy]

theorem assign (h : Γ.Meets (.assign x) doc p r t us) : Γ.assign doc p x =
    (.error ⟨.assigning, p, ⟨fault, .record r, .ofTokens (t :: us)⟩⟩, doc) := by
  obtain ⟨hp, ts, v, fields, hts, hpasses, hy, hn⟩ := h
  rw [assign_eq hp, hts, hpasses.assignTokens, assignTokens_barred hn hf hy]
  exact congrArg (Prod.mk _) hpasses.recover_self

theorem delete (h : Γ.Meets .delete doc p r t us) : Γ.delete doc p =
    (.error ⟨.deleting, p, ⟨fault, .record r, .ofTokens (t :: us)⟩⟩, doc) := by
  obtain ⟨hp, ts, v, fields, hts, hpasses, hy, hn⟩ := h
  rw [delete_eq hp, hts, hpasses.deleteTokens (List.cons_ne_nil t us), deleteTokens_barred hn hf hy]
  exact congrArg (Prod.mk _) hpasses.recover_self

end

end Meets

theorem reports_of_fieldPath {name : String} {answer : FieldLookup}
    (ha : (Γ.fieldIndex r).lookup name = answer)
    (hf : ∀ t : Token, t.decoded = name → Γ.fieldPath r t = .error fault) :
    Γ.Reports r name answer fault where
  lookup := ha
  resolve h ht dst := h.resolve (hf _ ht) dst
  assign h ht := h.assign (hf _ ht)
  delete h ht := h.delete (hf _ ht)

/-- **What is reported of a name that no visible field has**: that it may not be addressed, if it
    is the identifier of a withheld field, and else that there is nothing. -/
theorem reports_of_not_sees (hnames : (Members.names Γ.family).Nodup) {name : String}
    (h : ¬(Γ.fieldIndex r).Sees name) :
    (Withholds Γ.family r name → Γ.Reports r name .unexported (.unexportedField name)) ∧
      (¬Withholds Γ.family r name → Γ.Reports r name .missing .notFound) := by
  obtain ⟨hunexported, hmissing⟩ := lookup_withheld hnames h
  constructor
  · intro hw
    refine reports_of_fieldPath (hunexported hw) ?_
    rintro t rfl
    simp only [fieldPath, fieldIndex, hunexported hw]
  · intro hw
    refine reports_of_fieldPath (hmissing hw) ?_
    rintro t rfl
    simp only [fieldPath, fieldIndex, hmissing hw]

/-- **A withheld field is reported as unexported by its identifier**, also where it is promoted.
    By its name in documents it is so if this is the identifier of a withheld field too, as it is
    where the tag gives no name; otherwise it is reported as missing. -/
theorem withheld_reported (hnames : (Members.names Γ.records).Nodup) {f : FieldDecl}
    (hf : Includes Γ.family r f) (hw : f.Withheld) :
    (¬(Γ.fieldIndex r).Sees f.name →
      Γ.Reports r f.name .unexported (.unexportedField f.name)) ∧
    (f.naming = .plain → Withholds Γ.family r f.jsonName) ∧
    (¬(Γ.fieldIndex r).Sees f.jsonName →
      (Withholds Γ.family r f.jsonName →
        Γ.Reports r f.jsonName .unexported (.unexportedField f.jsonName)) ∧
      (¬Withholds Γ.family r f.jsonName → Γ.Reports r f.jsonName .missing .notFound)) := by
  have hfamily : (Members.names Γ.family).Nodup := by
    rwa [show Members.names Γ.family = Members.names Γ.records from List.map_map ..]
  have hname : Withholds Γ.family r f.name := ⟨f, hf, hw, rfl⟩
  refine ⟨fun h => (reports_of_not_sees hfamily h).1 hname, fun hplain => ?_,
    fun h => reports_of_not_sees hfamily h⟩
  rwa [FieldDecl.jsonName_of_plain hplain]

/-- The combination of a vault. -/
def combination : FieldDecl := { name := "combination", tag := some "code", exported := false }

theorem includes_combination : Includes vaults.family "Vault" combination :=
  ⟨[0], "Lock", [combination], .snoc .nil ⟨_, _, rfl, rfl, rfl⟩, rfl, List.mem_singleton.2 rfl⟩

theorem meets_vault (e : Errand) (hp : p.validate = .ok ()) (hts : p.tokens = t :: us) :
    vaults.Meets e vault p "Vault" t us := by
  refine ⟨hp, [], vault, _, hts, .here, ?_, rfl⟩
  cases e with
  | find => rfl
  | assign x => exact ⟨rfl, rfl⟩
  | delete => exact ⟨rfl, rfl⟩

/-- A vault tells that its combination is unexported. -/
theorem vault_reported :
    vaults.resolve vault (.string "") ⟨"/combination"⟩ = (.error ⟨.resolving, ⟨"/combination"⟩,
      ⟨.unexportedField "combination", .record "Vault", ⟨"/combination"⟩⟩⟩, .string "") ∧
    vaults.assign vault ⟨"/combination/0"⟩ (.string "") = (.error ⟨.assigning, ⟨"/combination/0"⟩,
      ⟨.unexportedField "combination", .record "Vault", ⟨"/combination/0"⟩⟩⟩, vault) := by
  have hnames : (Members.names vaults.records).Nodup := by decide +kernel
  have hfields : (vaults.fieldIndex "Vault").fields = [] := by decide +kernel
  have hsees (name : String) : ¬(vaults.fieldIndex "Vault").Sees name := by
    rintro ⟨f, hf, -⟩
    rw [hfields] at hf
    cases hf
  obtain ⟨hreports, -⟩ := withheld_reported hnames includes_combination (by decide +kernel)
  have hresolve : vaults.Meets .find vault ⟨"/combination"⟩ "Vault" ⟨"combination"⟩ [] :=
    meets_vault .find rfl rfl
  have hassign : vaults.Meets (.assign (.string "")) vault ⟨"/combination/0"⟩ "Vault"
      ⟨"combination"⟩ [⟨"0"⟩] := meets_vault _ rfl rfl
  exact ⟨(hreports (hsees _)).resolve hresolve rfl (.string ""),
    (hreports (hsees _)).assign hassign rfl⟩

/-- The name that its tag gives the combination is missing, although no visible field has it. -/
theorem code_missing : Includes vaults.family "Vault" combination ∧ combination.Withheld ∧
    combination.jsonName = "code" ∧ (vaults.fieldIndex "Vault").fields = [] ∧
    (vaults.fieldIndex "Vault").lookup "code" = .missing ∧
    vaults.resolve vault (.string "") ⟨"/code"⟩ =
      (.error ⟨.resolving, ⟨"/code"⟩, ⟨.notFound, .record "Vault", ⟨"/code"⟩⟩⟩, .string "") := by
  have hpath : vaults.fieldPath "Vault" ⟨"code"⟩ = .error .notFound := by decide +kernel
  have hmeets : vaults.Meets .find vault ⟨"/code"⟩ "Vault" ⟨"code"⟩ [] := meets_vault .find rfl rfl
  exact ⟨includes_combination, by decide +kernel, by decide +kernel, by decide +kernel,
    by decide +kernel, hmeets.resolve hpath (.string "")⟩

end DocPointer.Schema
