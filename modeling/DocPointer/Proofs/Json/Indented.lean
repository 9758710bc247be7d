/-
  Indented text is read as compact text is.

  The two differ in blanks between lexemes, which the machine skips.  So they are cut into the
  same lexemes, however numbers are read, and spell the same value, or both spell none.

  * `lexemes_pretty`: by induction on the value, where both texts are followed by texts that have
    the same lexemes.
  * `Json.read?_pretty`: whole texts.
-/
import DocPointer.Json.Reader
import DocPointer.Proofs.Json.Lexemes

namespace DocPointer

/-! ## What follows an item or a member -/

namespace Json

/-- What is printed behind an item, before the items that follow it. -/
def itemsTail : List Json → List Char
  | [] => [']']
  | x :: xs => ',' :: printItems (x :: xs)

/-- What is printed behind a member, before the members that follow it. -/
def membersTail : List (String × Json) → List Char
  | [] => ['}']
  | m :: ms => ',' :: printMembers (m :: ms)

theorem printItems_cons (x : Json) (xs : List Json) :
    printItems (x :: xs) = print x ++ itemsTail xs := by
  cases xs <;> rfl

theorem printMembers_cons (k : String) (v : Json) (ms : List (String × Json)) :
    printMembers ((k, v) :: ms) = printString k ++ ':' :: (print v ++ membersTail ms) := by
  cases ms with
  | nil => simp [printMembers, membersTail]
  | cons m ms => simp [printMembers, membersTail]

end Json

namespace Scan

variable {r : Rounding} {cs cs' : List Char}

/-! ## Blanks and runs -/

theorem lexemes_blanks {bs : List Char} (h : ∀ c ∈ bs, isBlank c = true) (cs : List Char) :
    gap.lexemes r (bs ++ cs) = gap.lexemes r cs := by
  induction bs with
  | nil => rfl
  | cons c bs ih =>
    obtain ⟨hc, hbs⟩ := List.forall_mem_cons.1 h
    rw [List.cons_append, lexemes_silent gap (by simp [step, start, hc]), ih hbs]

theorem lexemes_newline (level : Nat) (cs : List Char) :
    gap.lexemes r (Json.newline level ++ cs) = gap.lexemes r cs := by
  refine lexemes_blanks ?_ cs
  intro c hc
  rcases List.mem_cons.1 hc with rfl | hc
  · rfl
  · rw [List.eq_of_mem_replicate hc]
    rfl

/-- A run that is ended by what follows it. -/
theorem lexemes_ended (hcs : Stops cs) (read : List Char) :
    (run read).lexemes r cs =
      (Lexeme.ofRun? r read.reverse).bind fun j => (gap.lexemes r cs).map (.scalar j :: ·) := by
  cases cs with
  | nil => cases h : Lexeme.ofRun? r read.reverse <;> simp [lexemes, h]
  | cons c cs =>
    have hc : endsRun c = true := hcs c rfl
    cases h : Lexeme.ofRun? r read.reverse <;> simp [lexemes, step, hc, h, Function.comp_def]

section
variable (hcs : Stops cs) (hcs' : Stops cs') (h : gap.lexemes r cs = gap.lexemes r cs')
include hcs hcs' h

/-- What follows a run counts by its lexemes. -/
theorem lexemes_run_congr {ds : List Char} (hds : ∀ c ∈ ds, endsRun c = false) (read : List Char) :
    (run read).lexemes r (ds ++ cs) = (run read).lexemes r (ds ++ cs') := by
  induction ds generalizing read with
  | nil =>
    rw [List.nil_append, List.nil_append, lexemes_ended hcs, lexemes_ended hcs', h]
  | cons c ds ih =>
    obtain ⟨hc, hds⟩ := List.forall_mem_cons.1 hds
    rw [List.cons_append, List.cons_append, lexemes_silent (run (c :: read)) (by simp [step, hc]),
      lexemes_silent (run (c :: read)) (by simp [step, hc])]
    exact ih hds (c :: read)

theorem lexemes_ofRun_congr {ds : List Char} (hds : ∀ c ∈ ds, endsRun c = false) :
    gap.lexemes r (ds ++ cs) = gap.lexemes r (ds ++ cs') := by
  cases ds with
  | nil => exact h
  | cons c ds =>
    obtain ⟨hc, hds⟩ := List.forall_mem_cons.1 hds
    have hstart : gap.step r c = some (run [c], []) := by
      simp only [endsRun, Bool.or_eq_false_iff, decide_eq_false_iff_not, Option.isSome_eq_false_iff,
        Option.isNone_iff_eq_none] at hc
      simp [step, start, hc]
    rw [List.cons_append, List.cons_append, lexemes_silent _ hstart, lexemes_silent _ hstart]
    exact lexemes_run_congr hcs hcs' h hds [c]

theorem lexemes_literal_congr {ds : List Char} (hds : ds.any endsRun = false) :
    gap.lexemes r (ds ++ cs) = gap.lexemes r (ds ++ cs') := by
  refine lexemes_ofRun_congr hcs hcs' h fun c hc => ?_
  simpa using List.any_eq_false.1 hds c hc

end

/-! ## Values -/

theorem stops_prettyItems (level : Nat) (xs : List Json) (cs : List Char) :
    Stops (Json.prettyItems level xs ++ cs) := by
  cases xs <;> exact stops_mark rfl

theorem stops_prettyMembers (level : Nat) (ms : List (String × Json)) (cs : List Char) :
    Stops (Json.prettyMembers level ms ++ cs) := by
  cases ms <;> exact stops_mark rfl

theorem stops_itemsTail (xs : List Json) (cs : List Char) : Stops (Json.itemsTail xs ++ cs) := by
  cases xs <;> exact stops_mark rfl

theorem stops_membersTail (ms : List (String × Json)) (cs : List Char) :
    Stops (Json.membersTail ms ++ cs) := by
  cases ms <;> exact stops_mark rfl

mutual

/-- **The indented text of a value has the lexemes of the compact one.** -/
theorem lexemes_pretty {cs cs' : List Char} (level : Nat) (hcs : Stops cs) (hcs' : Stops cs')
    (h : gap.lexemes r cs = gap.lexemes r cs') : ∀ j : Json,
    gap.lexemes r (j.prettyAt level ++ cs) = gap.lexemes r (j.print ++ cs')
  | .null | .bool true | .bool false => lexemes_literal_congr hcs hcs' h rfl
  | .num n => lexemes_ofRun_congr hcs hcs' h n.endsRun_print
  | .str s => by
    rw [Json.prettyAt, Json.print, lexemes_printString, lexemes_printString, h]
    all_goals nofun
  | .arr [] => by
    show gap.lexemes r ('[' :: ']' :: cs) = gap.lexemes r ('[' :: ']' :: cs')
    rw [lexemes_mark rfl, lexemes_mark rfl, lexemes_mark rfl, lexemes_mark rfl, h]
  | .arr (x :: xs) => by
    rw [Json.prettyAt, Json.print, Json.printItems_cons]
    simp only [List.cons_append, List.append_assoc]
    rw [lexemes_mark rfl, lexemes_mark rfl, lexemes_newline,
      lexemes_pretty (level + 1) (stops_prettyItems level xs cs) (stops_itemsTail xs cs')
        (lexemes_prettyItems level h xs) x]
  | .obj [] => by
    show gap.lexemes r ('{' :: '}' :: cs) = gap.lexemes r ('{' :: '}' :: cs')
    rw [lexemes_mark rfl, lexemes_mark rfl, lexemes_mark rfl, lexemes_mark rfl, h]
  | .obj ((k, v) :: ms) => by
    rw [Json.prettyAt, Json.print, Json.printMembers_cons]
    simp only [List.cons_append, List.append_assoc]
    rw [lexemes_mark rfl, lexemes_mark rfl, lexemes_newline, lexemes_printString,
      lexemes_printString, lexemes_mark rfl, lexemes_silent gap rfl, lexemes_mark rfl,
      lexemes_pretty (level + 1) (stops_prettyMembers level ms cs) (stops_membersTail ms cs')
        (lexemes_prettyMembers level h ms) v]

theorem lexemes_prettyItems {cs cs' : List Char} (level : Nat)
    (h : gap.lexemes r cs = gap.lexemes r cs') :
    ∀ xs : List Json,
      gap.lexemes r (Json.prettyItems level xs ++ cs) = gap.lexemes r (Json.itemsTail xs ++ cs')
  | [] => by
    rw [Json.prettyItems, List.append_assoc, lexemes_newline, Json.itemsTail]
    simp only [List.cons_append, List.nil_append]
    rw [lexemes_mark rfl, lexemes_mark rfl, h]
  | x :: xs => by
    rw [Json.prettyItems, Json.itemsTail, Json.printItems_cons]
    simp only [List.cons_append, List.append_assoc]
    rw [lexemes_mark rfl, lexemes_mark rfl, lexemes_newline,
      lexemes_pretty (level + 1) (stops_prettyItems level xs cs) (stops_itemsTail xs cs')
        (lexemes_prettyItems level h xs) x]

theorem lexemes_prettyMembers {cs cs' : List Char} (level : Nat)
    (h : gap.lexemes r cs = gap.lexemes r cs') :
    ∀ ms : List (String × Json),
      gap.lexemes r (Json.prettyMembers level ms ++ cs) = gap.lexemes r (Json.membersTail ms ++ cs')
  | [] => by
    rw [Json.prettyMembers, List.append_assoc, lexemes_newline, Json.membersTail]
    simp only [List.cons_append, List.nil_append]
    rw [lexemes_mark rfl, lexemes_mark rfl, h]
  | (k, v) :: ms => by
    rw [Json.prettyMembers, Json.membersTail, Json.printMembers_cons]
    simp only [List.cons_append, List.append_assoc]
    rw [lexemes_mark rfl, lexemes_mark rfl, lexemes_newline, lexemes_printString,
      lexemes_printString, lexemes_mark rfl, lexemes_silent gap rfl, lexemes_mark rfl,
      lexemes_pretty (level + 1) (stops_prettyMembers level ms cs) (stops_membersTail ms cs')
        (lexemes_prettyMembers level h ms) v]

end

end Scan

/-! ## Texts -/

/-- **The indented text of a value is read as the compact one.** -/
theorem Json.read?_pretty (r : Reading) (j : Json) : read? r j.pretty = read? r j.text := by
  have hend : Scan.Stops [] := by simp [Scan.Stops]
  have h := Scan.lexemes_pretty (r := r.rounding) 0 hend hend rfl j
  rw [List.append_nil, List.append_nil] at h
  rw [read?, read?, readChars?, readChars?, pretty, text, String.toList_ofList,
    String.toList_ofList, h]

end DocPointer
