/-
  Printed text is cut into the lexemes of the value.

  The machine is followed through the text of a value from one gap to the next.  Inside a
  string it takes the spelling of one character after the other, and a run that the text
  starts is ended by whatever follows the value.
-/
import DocPointer.Proofs.Json.Numbers

namespace DocPointer

/-! ## Lexemes of a value -/

namespace Json

mutual

/-- The lexemes of a value. -/
def lexemes : Json → List Lexeme
  | arr xs => .openArr :: itemLexemes xs
  | obj ms => .openObj :: memberLexemes ms
  | j => [.scalar j]

/-- The lexemes of items and of the closing bracket. -/
def itemLexemes : List Json → List Lexeme
  | [] => [.closeArr]
  | [x] => lexemes x ++ [.closeArr]
  | x :: xs => lexemes x ++ .comma :: itemLexemes xs

/-- The lexemes of members and of the closing brace. -/
def memberLexemes : List (String × Json) → List Lexeme
  | [] => [.closeObj]
  | [(k, v)] => .scalar (.str k) :: .colon :: lexemes v ++ [.closeObj]
  | (k, v) :: ms => .scalar (.str k) :: .colon :: lexemes v ++ .comma :: memberLexemes ms

end

mutual

/-- The value with what `f` makes of its numbers. -/
def renumber (f : Number → Number) : Json → Json
  | num n => .num (f n)
  | arr xs => .arr (renumberItems f xs)
  | obj ms => .obj (renumberMembers f ms)
  | j => j

/-- The items with what `f` makes of their numbers. -/
def renumberItems (f : Number → Number) : List Json → List Json
  | [] => []
  | x :: xs => renumber f x :: renumberItems f xs

/-- The members with what `f` makes of their numbers. -/
def renumberMembers (f : Number → Number) : List (String × Json) → List (String × Json)
  | [] => []
  | (k, v) :: ms => (k, renumber f v) :: renumberMembers f ms

end

mutual

theorem renumber_id : ∀ j : Json, j.renumber id = j
  | .null | .bool _ | .num _ | .str _ => rfl
  | .arr xs => by rw [renumber, renumberItems_id xs]
  | .obj ms => by rw [renumber, renumberMembers_id ms]

theorem renumberItems_id : ∀ xs : List Json, renumberItems id xs = xs
  | [] => rfl
  | x :: xs => by rw [renumberItems, renumber_id x, renumberItems_id xs]

theorem renumberMembers_id : ∀ ms : List (String × Json), renumberMembers id ms = ms
  | [] => rfl
  | (k, v) :: ms => by rw [renumberMembers, renumber_id v, renumberMembers_id ms]

end

end Json

namespace Scan

variable {r : Rounding} {rest : List Char}

/-- What follows a value ends a run. -/
def Stops (rest : List Char) : Prop := ∀ c ∈ rest.head?, endsRun c = true

theorem lexemes_silent {s : Scan} (s' : Scan) {c : Char} (h : s.step r c = some (s', [])) (cs : List Char) :
    s.lexemes r (c :: cs) = s'.lexemes r cs := by
  rw [lexemes, h]
  simp

/-! ## Marks and runs -/

/-- A mark is a lexeme. -/
theorem lexemes_mark {c : Char} {l : Lexeme} (hc : Lexeme.mark? c = some l) (rest : List Char) :
    gap.lexemes r (c :: rest) = (gap.lexemes r rest).map (l :: ·) := by
  have hstep : gap.step r c = some (gap, [l]) := by
    unfold Lexeme.mark? at hc
    split at hc <;> cases hc <;> rfl
  rw [lexemes, hstep]
  rfl

/-- A run is read to its end. -/
theorem lexemes_run {cs : List Char} (hcs : ∀ c ∈ cs, endsRun c = false) (hr : Stops rest)
    (read : List Char) {j : Json} (hj : Lexeme.ofRun? r (read.reverse ++ cs) = some j) :
    (run read).lexemes r (cs ++ rest) = (gap.lexemes r rest).map (.scalar j :: ·) := by
  induction cs generalizing read with
  | nil =>
    rw [List.append_nil] at hj
    cases rest with
    | nil => simp [lexemes, hj]
    | cons c rest =>
      have hc : endsRun c = true := hr c rfl
      simp [lexemes, step, hc, hj, Function.comp_def]
  | cons c cs ih =>
    obtain ⟨hc, hcs⟩ := List.forall_mem_cons.1 hcs
    rw [List.cons_append, lexemes_silent (run (c :: read)) (by simp [step, hc])]
    exact ih hcs (c :: read) (by simpa using hj)

/-- A run that spells a value is the lexeme of that value. -/
theorem lexemes_ofRun {cs : List Char} (hne : cs ≠ []) (hcs : ∀ c ∈ cs, endsRun c = false)
    (hr : Stops rest) {j : Json} (hj : Lexeme.ofRun? r cs = some j) :
    gap.lexemes r (cs ++ rest) = (gap.lexemes r rest).map (.scalar j :: ·) := by
  cases cs with
  | nil => exact absurd rfl hne
  | cons c cs =>
    obtain ⟨hc, hcs⟩ := List.forall_mem_cons.1 hcs
    have hstart : start c = (run [c], []) := by
      simp only [endsRun, Bool.or_eq_false_iff, decide_eq_false_iff_not, Option.isSome_eq_false_iff,
        Option.isNone_iff_eq_none] at hc
      simp [start, hc]
    rw [List.cons_append, lexemes_silent (run [c]) (by simp [step, hstart])]
    exact lexemes_run hcs hr [c] hj

theorem lexemes_literal {c : Char} {cs : List Char} (hcs : (c :: cs).any endsRun = false)
    (hr : Stops rest) {j : Json} (hj : Lexeme.ofRun? r (c :: cs) = some j) :
    gap.lexemes r (c :: cs ++ rest) = (gap.lexemes r rest).map (.scalar j :: ·) := by
  refine lexemes_ofRun (List.cons_ne_nil c cs) ?_ hr hj
  intro d hd
  simpa using List.any_eq_false.1 hcs d hd

/-! ## Strings -/

theorem hexDigit?_hexDigit : ∀ n < 16, Digits.hexDigit? (Digits.hexDigit n) = some n := by decide

theorem lexemes_letter {c d : Char} (h : letter? d = some c) (read rest : List Char) :
    (text read).lexemes r ('\\' :: d :: rest) = (text (c :: read)).lexemes r rest := by
  have hu : d ≠ 'u' := by
    rintro rfl
    cases h
  rw [lexemes_silent (escape read) rfl, lexemes_silent (text (c :: read))]
  simp [step, hu, h]

/-- A control character is spelled by its four hexadecimal digits. -/
theorem lexemes_control {c : Char} (h : c.toNat < 32) (read rest : List Char) :
    (text read).lexemes r ('\\' :: 'u' :: '0' :: '0' :: Digits.hexDigit (c.toNat / 16) ::
      Digits.hexDigit (c.toNat % 16) :: rest) = (text (c :: read)).lexemes r rest := by
  have hhigh := hexDigit?_hexDigit (c.toNat / 16) (by omega)
  have hlow := hexDigit?_hexDigit (c.toNat % 16) (by omega)
  have hunit : unit? read none (16 * (c.toNat / 16) + c.toNat % 16) = some (text (c :: read)) := by
    rw [Nat.div_add_mod, unit?, if_neg (by omega), if_neg (by omega), Char.ofNat_toNat]
  rw [lexemes_silent (escape read) rfl, lexemes_silent (hex read none 3 0) rfl,
    lexemes_silent (hex read none 2 0) rfl, lexemes_silent (hex read none 1 0) rfl,
    lexemes_silent (hex read none 0 (c.toNat / 16)) (by simp [step, hhigh]),
    lexemes_silent (text (c :: read)) (by simp [step, hlow, hunit])]

/-- The spelling of a character in a string is read as that character. -/
theorem lexemes_escape (c : Char) (read rest : List Char) :
    (text read).lexemes r (Json.escape c ++ rest) = (text (c :: read)).lexemes r rest := by
  rw [Json.escape]
  split_ifs with hq hb h8 hc hn hr ht h32
  · rw [hq]
    exact lexemes_letter rfl read rest
  · rw [hb]
    exact lexemes_letter rfl read rest
  · rw [h8]
    exact lexemes_letter rfl read rest
  · rw [hc]
    exact lexemes_letter rfl read rest
  · rw [hn]
    exact lexemes_letter rfl read rest
  · rw [hr]
    exact lexemes_letter rfl read rest
  · rw [ht]
    exact lexemes_letter rfl read rest
  · exact lexemes_control h32 read rest
  · exact lexemes_silent _ (by simp [step, hq, hb, h32]) rest

theorem lexemes_text (cs read rest : List Char) :
    (text read).lexemes r (cs.flatMap Json.escape ++ '"' :: rest) =
      (gap.lexemes r rest).map (.scalar (.str (String.ofList (read.reverse ++ cs))) :: ·) := by
  induction cs generalizing read with
  | nil => simp [lexemes, step]
  | cons c cs ih =>
    rw [List.flatMap_cons, List.append_assoc, lexemes_escape, ih]
    simp

theorem lexemes_printString (s : String) (rest : List Char) :
    gap.lexemes r (Json.printString s ++ rest) =
      (gap.lexemes r rest).map (.scalar (.str s) :: ·) := by
  have htext := lexemes_text (r := r) s.toList [] rest
  rw [Json.printString, List.append_assoc, List.cons_append, lexemes_silent (text []) rfl]
  simpa using htext

/-! ## Values -/

/-- A number is the lexeme of what its text is read as. -/
theorem ofRun?_print (n : Number) :
    Lexeme.ofRun? r n.print = (Number.read? r n.print).map .num := by
  obtain ⟨c, cs, hcs, hc⟩ := n.head_print
  have hne (d : Char) (ds : List Char) (hd : d ≠ '-' ∧ Digits.isDigit d = false) :
      n.print ≠ d :: ds := by
    rw [hcs]
    rintro ⟨⟩
    rcases hc with rfl | hc
    · exact hd.1 rfl
    · rw [hd.2] at hc
      cases hc
  have hnull : n.print ≠ "null".toList := hne 'n' ['u', 'l', 'l'] (by decide)
  have htrue : n.print ≠ "true".toList := hne 't' ['r', 'u', 'e'] (by decide)
  have hfalse : n.print ≠ "false".toList := hne 'f' ['a', 'l', 's', 'e'] (by decide)
  rw [Lexeme.ofRun?, if_neg hnull, if_neg htrue, if_neg hfalse]

theorem print_ne_nil (n : Number) : n.print ≠ [] := by
  obtain ⟨c, cs, hcs, -⟩ := n.head_print
  simp [hcs]

theorem stops_mark {c : Char} {cs : List Char} (hc : endsRun c = true) : Stops (c :: cs) := by
  rintro _ ⟨⟩
  exact hc

mutual

/-- **The text of a value is cut into the lexemes of the value**, its numbers as they are
    read. -/
theorem lexemes_print {f : Number → Number} (hf : ∀ n, Number.read? r n.print = some (f n))
    {rest : List Char} (hr : Stops rest) : ∀ j : Json,
      gap.lexemes r (j.print ++ rest) = (gap.lexemes r rest).map ((j.renumber f).lexemes ++ ·)
  | .null => lexemes_literal rfl hr rfl
  | .bool true => lexemes_literal rfl hr rfl
  | .bool false => lexemes_literal rfl hr rfl
  | .num n => lexemes_ofRun (print_ne_nil n) n.endsRun_print hr
    (by rw [ofRun?_print, hf]; rfl)
  | .str s => lexemes_printString s rest
  | .arr xs => by
    rw [Json.print, List.cons_append, lexemes_mark rfl, lexemes_printItems hf rest xs]
    simp [Json.lexemes, Json.renumber, Function.comp_def]
  | .obj ms => by
    rw [Json.print, List.cons_append, lexemes_mark rfl, lexemes_printMembers hf rest ms]
    simp [Json.lexemes, Json.renumber, Function.comp_def]

theorem lexemes_printItems {f : Number → Number} (hf : ∀ n, Number.read? r n.print = some (f n))
    (rest : List Char) : ∀ xs : List Json,
      gap.lexemes r (Json.printItems xs ++ rest) =
        (gap.lexemes r rest).map (Json.itemLexemes (Json.renumberItems f xs) ++ ·)
  | [] => lexemes_mark rfl rest
  | [x] => by
    rw [Json.printItems, List.append_assoc, List.singleton_append,
      lexemes_print hf (stops_mark rfl) x, lexemes_mark rfl]
    simp [Json.itemLexemes, Json.renumberItems, Function.comp_def]
  | x :: y :: xs => by
    show gap.lexemes r ((x.print ++ ',' :: Json.printItems (y :: xs)) ++ rest) = _
    rw [List.append_assoc, List.cons_append, lexemes_print hf (stops_mark rfl) x,
      lexemes_mark rfl, lexemes_printItems hf rest (y :: xs)]
    simp [Json.itemLexemes, Json.renumberItems, Function.comp_def]

theorem lexemes_printMembers {f : Number → Number}
    (hf : ∀ n, Number.read? r n.print = some (f n)) (rest : List Char) : ∀ ms : List (String × Json),
      gap.lexemes r (Json.printMembers ms ++ rest) =
        (gap.lexemes r rest).map (Json.memberLexemes (Json.renumberMembers f ms) ++ ·)
  | [] => lexemes_mark rfl rest
  | [(k, v)] => by
    rw [Json.printMembers]
    simp only [List.append_assoc, List.cons_append]
    rw [lexemes_printString, lexemes_mark rfl, lexemes_print hf (stops_mark rfl) v,
      lexemes_mark rfl]
    simp [Json.memberLexemes, Json.renumberMembers, Function.comp_def]
  | (k, v) :: m :: ms => by
    show gap.lexemes r
      ((Json.printString k ++ ':' :: v.print ++ ',' :: Json.printMembers (m :: ms)) ++ rest) = _
    simp only [List.append_assoc, List.cons_append]
    rw [lexemes_printString, lexemes_mark rfl, lexemes_print hf (stops_mark rfl) v,
      lexemes_mark rfl, lexemes_printMembers hf rest (m :: ms)]
    simp [Json.memberLexemes, Json.renumberMembers, Function.comp_def]

end

end Scan

end DocPointer
