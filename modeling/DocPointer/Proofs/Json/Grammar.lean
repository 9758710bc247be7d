/-
  The grammar of JSON text, and that no other text is read.

  The grammar has two levels.  A text is cut into words with blanks between them
  (`Grammar.Cut`); a word is a mark, a literal name, a number or a string (`Grammar.Spells`).
  Words make a value by the rules for arrays and objects (`Grammar.IsValue`).  What a value
  means, how deep it may nest and which numbers are too great is not part of it.

  * `Scan.reads_of_lexemes`: a text that is cut has the form that the position of the machine
    demands, by induction on the text, from that of what follows a step.
  * `Assembly.completes_of_run`: so have lexemes that are assembled.
  * `Json.isText_of_read?` and `Json.isText_pretty`: what is read, and what is printed, is JSON
    text.
-/
import DocPointer.Proofs.Json.Indented
import DocPointer.Proofs.Json.Reader
import DocPointer.Proofs.Json.Roundtrip

namespace DocPointer

/-! ## The grammar -/

namespace Grammar

/-- A decimal digit. -/
def IsDigit (c : Char) : Prop := '0' ≤ c ∧ c ≤ '9'

instance (c : Char) : Decidable (IsDigit c) := inferInstanceAs (Decidable (_ ∧ _))

/-- A hexadecimal digit of either case. -/
def IsHexDigit (c : Char) : Prop := IsDigit c ∨ ('a' ≤ c ∧ c ≤ 'f') ∨ ('A' ≤ c ∧ c ≤ 'F')

/-- One digit or more. -/
def IsDigits (cs : List Char) : Prop := cs ≠ [] ∧ ∀ c ∈ cs, IsDigit c

/-- The integer part of a number: no zero stands in front of other digits. -/
def IsWhole (cs : List Char) : Prop := IsDigits cs ∧ (cs.head? = some '0' → cs = ['0'])

/-- The fraction of a number. -/
inductive IsFraction : List Char → Prop where
  | absent : IsFraction []
  | point {ds : List Char} (h : IsDigits ds) : IsFraction ('.' :: ds)

/-- The exponent of a number. -/
inductive IsExponent : List Char → Prop where
  | absent : IsExponent []
  | power {e : Char} {sign ds : List Char} (he : e = 'e' ∨ e = 'E')
      (hsign : sign = [] ∨ sign = ['+'] ∨ sign = ['-']) (h : IsDigits ds) :
      IsExponent (e :: (sign ++ ds))

/-- A number without a sign. -/
inductive IsUnsigned : List Char → Prop where
  | mk {ds fs es : List Char} (hds : IsWhole ds) (hfs : IsFraction fs) (hes : IsExponent es) :
      IsUnsigned (ds ++ (fs ++ es))

/-- A number. -/
inductive IsNumber : List Char → Prop where
  | unsigned {cs : List Char} (h : IsUnsigned cs) : IsNumber cs
  | negative {cs : List Char} (h : IsUnsigned cs) : IsNumber ('-' :: cs)

/-- What stands between the quotes of a string: characters that stand for themselves, letters
    behind a backslash, and four hexadecimal digits behind a backslash and a `u`. -/
inductive IsBody : List Char → Prop where
  | nil : IsBody []
  | plain {c : Char} {cs : List Char} (hquote : c ≠ '"') (hslash : c ≠ '\\')
      (hcontrol : 32 ≤ c.toNat) (h : IsBody cs) : IsBody (c :: cs)
  | letter {c : Char} {cs : List Char} (hc : c ∈ ['"', '\\', '/', 'b', 'f', 'n', 'r', 't'])
      (h : IsBody cs) : IsBody ('\\' :: c :: cs)
  | hex {ds cs : List Char} (hlen : ds.length = 4) (hds : ∀ d ∈ ds, IsHexDigit d)
      (h : IsBody cs) : IsBody ('\\' :: 'u' :: (ds ++ cs))

/-- The words of a lexeme. -/
inductive Spells : Lexeme → List Char → Prop where
  | openArr : Spells .openArr ['[']
  | closeArr : Spells .closeArr [']']
  | openObj : Spells .openObj ['{']
  | closeObj : Spells .closeObj ['}']
  | comma : Spells .comma [',']
  | colon : Spells .colon [':']
  | null : Spells (.scalar .null) "null".toList
  | true : Spells (.scalar (.bool true)) "true".toList
  | false : Spells (.scalar (.bool false)) "false".toList
  | number {n : Number} {cs : List Char} (h : IsNumber cs) : Spells (.scalar (.num n)) cs
  | string {s : String} {cs : List Char} (h : IsBody cs) :
      Spells (.scalar (.str s)) ('"' :: (cs ++ ['"']))

/-- A text consists of words of the lexemes, with blanks before, between and behind them. -/
inductive Cut : List Char → List Lexeme → Prop where
  | nil : Cut [] []
  | blank {c : Char} {cs : List Char} {ls : List Lexeme} (hc : c ∈ [' ', '\t', '\n', '\r'])
      (h : Cut cs ls) : Cut (c :: cs) ls
  | word {l : Lexeme} {word cs : List Char} {ls : List Lexeme} (hl : Spells l word)
      (h : Cut cs ls) : Cut (word ++ cs) (l :: ls)

mutual

/-- A value. -/
inductive IsValue : List Lexeme → Prop where
  | scalar (j : Json) : IsValue [.scalar j]
  | emptyArr : IsValue [.openArr, .closeArr]
  | arr {ls ms : List Lexeme} (hv : IsValue ls) (h : IsItems ms) :
      IsValue (.openArr :: (ls ++ ms))
  | emptyObj : IsValue [.openObj, .closeObj]
  | obj {ls ms : List Lexeme} (name : String) (hv : IsValue ls) (h : IsMembers ms) :
      IsValue (.openObj :: .scalar (.str name) :: .colon :: (ls ++ ms))

/-- The items behind an item, and the closing bracket. -/
inductive IsItems : List Lexeme → Prop where
  | close : IsItems [.closeArr]
  | next {ls ms : List Lexeme} (hv : IsValue ls) (h : IsItems ms) : IsItems (.comma :: (ls ++ ms))

/-- The members behind a member, and the closing brace. -/
inductive IsMembers : List Lexeme → Prop where
  | close : IsMembers [.closeObj]
  | next {ls ms : List Lexeme} (name : String) (hv : IsValue ls) (h : IsMembers ms) :
      IsMembers (.comma :: .scalar (.str name) :: .colon :: (ls ++ ms))

end

end Grammar

/-- A text that the grammar of JSON makes. -/
def Json.IsText (s : String) : Prop := ∃ ls, Grammar.Cut s.toList ls ∧ Grammar.IsValue ls

open Grammar

/-! ## Numbers -/

namespace Number

variable {cs rest : List Char}

theorem isDigits_of_digits? {ds : List Char} (h : digits? cs = some (ds, rest)) :
    IsDigits ds ∧ cs = ds ++ rest := by
  rw [digits?] at h
  split at h
  · cases h
  · next hne =>
    cases h
    refine ⟨⟨hne, fun c hc => ?_⟩, List.takeWhile_append_dropWhile.symm⟩
    exact Digits.isDigit_iff.1 (List.all_eq_true.1 List.all_takeWhile c hc)

theorem isWhole_of_whole? {ds : List Char} (h : whole? cs = some (ds, rest)) :
    IsWhole ds ∧ cs = ds ++ rest := by
  rw [whole?] at h
  split at h
  · cases h
  · next hzero =>
    obtain ⟨hds, heq⟩ := isDigits_of_digits? h
    refine ⟨⟨hds, fun hhead => ?_⟩, heq⟩
    obtain ⟨more, rfl⟩ := List.head?_eq_some_iff.1 hhead
    cases more with
    | nil => rfl
    | cons d more => exact absurd h (hzero d more rest)

theorem isFraction_of_fraction? {found : Option (List Char)}
    (h : fraction? cs = some (found, rest)) : ∃ fs, IsFraction fs ∧ cs = fs ++ rest := by
  rw [fraction?.eq_def] at h
  split at h
  · obtain ⟨⟨ds, rest⟩, hds, heq⟩ := Option.map_eq_some_iff.1 h
    cases heq
    obtain ⟨hds', rfl⟩ := isDigits_of_digits? hds
    exact ⟨_, .point hds', rfl⟩
  · cases h
    exact ⟨_, .absent, rfl⟩

theorem isDigits_of_signed? {e : Int} (h : signed? cs = some (e, rest)) :
    ∃ sign ds, (sign = [] ∨ sign = ['+'] ∨ sign = ['-']) ∧ IsDigits ds ∧
      cs = sign ++ (ds ++ rest) := by
  have hdigits {f : List Char × List Char → Int × List Char} {ds : List Char}
      (hf : ∀ d, (f d).2 = d.2) (h : (digits? ds).map f = some (e, rest)) :
      ∃ es, IsDigits es ∧ ds = es ++ rest := by
    obtain ⟨⟨es, rest'⟩, hes, heq⟩ := Option.map_eq_some_iff.1 h
    have hrest : rest' = rest := (hf _).symm.trans (congrArg Prod.snd heq)
    subst hrest
    exact ⟨es, isDigits_of_digits? hes⟩
  rw [signed?.eq_def] at h
  split at h
  · obtain ⟨ds, hds, rfl⟩ := hdigits (fun _ => rfl) h
    exact ⟨['-'], ds, .inr (.inr rfl), hds, rfl⟩
  · obtain ⟨ds, hds, rfl⟩ := hdigits (fun _ => rfl) h
    exact ⟨['+'], ds, .inr (.inl rfl), hds, rfl⟩
  · obtain ⟨ds, hds, rfl⟩ := hdigits (fun _ => rfl) h
    exact ⟨[], ds, .inl rfl, hds, rfl⟩

theorem isExponent_of_exponent? {found : Option Int} (h : exponent? cs = some (found, rest)) :
    ∃ es, IsExponent es ∧ cs = es ++ rest := by
  have hpower {e : Char} {ds : List Char} (he : e = 'e' ∨ e = 'E')
      (h : ((signed? ds).map fun p => (some p.1, p.2)) = some (found, rest)) :
      ∃ es, IsExponent es ∧ e :: ds = es ++ rest := by
    obtain ⟨⟨n, rest⟩, hn, heq⟩ := Option.map_eq_some_iff.1 h
    cases heq
    obtain ⟨sign, ds, hsign, hds, rfl⟩ := isDigits_of_signed? hn
    exact ⟨_, .power he hsign hds, by simp⟩
  rw [exponent?.eq_def] at h
  split at h
  · exact hpower (.inl rfl) h
  · exact hpower (.inr rfl) h
  · cases h
    exact ⟨_, .absent, rfl⟩

variable {r : Rounding} {n : Number}

theorem isUnsigned_of_unsigned? {negative : Bool} (h : unsigned? r negative cs = some n) :
    IsUnsigned cs := by
  rw [unsigned?] at h
  split at h
  · cases h
  next ds rest hwhole =>
  split at h
  · cases h
  next fs rest' hfraction =>
  split at h
  · next e hexponent =>
    obtain ⟨hds, rfl⟩ := isWhole_of_whole? hwhole
    obtain ⟨fs, hfs, rfl⟩ := isFraction_of_fraction? hfraction
    obtain ⟨es, hes, rfl⟩ := isExponent_of_exponent? hexponent
    rw [List.append_nil]
    exact ⟨hds, hfs, hes⟩
  · cases h

/-- **What is read as a number is one.** -/
theorem isNumber_of_read? (h : read? r cs = some n) : IsNumber cs := by
  rw [read?.eq_def] at h
  split at h
  · exact .negative (isUnsigned_of_unsigned? h)
  · exact .unsigned (isUnsigned_of_unsigned? h)

end Number

/-! ## Words -/

theorem Lexeme.spells_of_ofRun? {r : Rounding} {cs : List Char} {j : Json}
    (h : ofRun? r cs = some j) : Spells (.scalar j) cs := by
  rw [ofRun?] at h
  split at h
  · next heq =>
    cases h
    exact heq ▸ .null
  split at h
  · next heq =>
    cases h
    exact heq ▸ .true
  split at h
  · next heq =>
    cases h
    exact heq ▸ .false
  · obtain ⟨n, hn, rfl⟩ := Option.map_eq_some_iff.1 h
    exact .number (Number.isNumber_of_read? hn)

theorem Lexeme.spells_of_mark? {c : Char} {l : Lexeme} (h : mark? c = some l) : Spells l [c] := by
  rw [mark?.eq_def] at h
  split at h <;> cases h <;> constructor

theorem Grammar.isHexDigit_of_hexDigit? {c : Char} {d : Nat} (h : Digits.hexDigit? c = some d) :
    IsHexDigit c := by
  rw [Digits.hexDigit?] at h
  split at h
  · next hc => exact .inl hc
  split at h
  · next hc => exact .inr (.inl hc)
  split at h
  · next hc => exact .inr (.inr hc)
  · cases h

namespace Scan

/-- The text goes on with the rest of a string, of which `P` holds, and its closing quote. -/
def Inside (P : List Char → Prop) (cs : List Char) (ls : List Lexeme) : Prop :=
  ∃ body rest s ls', cs = body ++ '"' :: rest ∧ P body ∧ ls = .scalar (.str s) :: ls' ∧ Cut rest ls'

/-- The form of a text that is cut into the lexemes from a position of the machine on. -/
def Reads : Scan → List Char → List Lexeme → Prop
  | gap, cs, ls => Cut cs ls
  | run read, cs, ls => ∃ more rest j ls', cs = more ++ rest ∧
      Spells (.scalar j) (read.reverse ++ more) ∧ ls = .scalar j :: ls' ∧ Cut rest ls'
  | text _, cs, ls | half _ _, cs, ls => Inside IsBody cs ls
  | escape _, cs, ls | halfEscape _ _, cs, ls => Inside (fun body => IsBody ('\\' :: body)) cs ls
  | hex _ _ left _, cs, ls => Inside (fun body => ∃ ds rest, body = ds ++ rest ∧
      ds.length = left + 1 ∧ (∀ d ∈ ds, IsHexDigit d) ∧ IsBody rest) cs ls

variable {r : Rounding} {s s' : Scan} {c : Char} {cs : List Char} {ls ms : List Lexeme}

/-- A character of a string. -/
theorem Inside.cons {P Q : List Char → Prop} (h : Inside P cs ls)
    (hPQ : ∀ body, P body → Q (c :: body)) : Inside Q (c :: cs) ls := by
  obtain ⟨body, rest, s, ls', rfl, hbody, rfl, hrest⟩ := h
  exact ⟨c :: body, rest, s, ls', rfl, hPQ body hbody, rfl, hrest⟩

/-- A character between lexemes. -/
theorem cut_of_start (h : (start c).1.Reads cs ms) : Cut (c :: cs) ((start c).2 ++ ms) := by
  rw [start] at h ⊢
  split at h
  · next hc =>
    rw [if_pos hc]
    refine .blank ?_ h
    simpa [isBlank, or_assoc] using hc
  next hc =>
  rw [if_neg hc]
  split at h
  · next hquote =>
    rw [if_pos hquote, hquote]
    obtain ⟨body, rest, s, ls', rfl, hbody, rfl, hrest⟩ := h
    have hcut := Cut.word (.string (s := s) hbody) hrest
    simpa using hcut
  next hquote =>
  rw [if_neg hquote]
  cases hl : Lexeme.mark? c with
  | some l =>
    rw [hl] at h
    exact .word (Lexeme.spells_of_mark? hl) h
  | none =>
    rw [hl] at h
    obtain ⟨more, rest, j, ls', rfl, hspells, rfl, hrest⟩ := h
    exact .word hspells hrest

theorem mem_of_letter? {d : Char} (h : letter? c = some d) :
    c ∈ ['"', '\\', '/', 'b', 'f', 'n', 'r', 't'] := by
  rw [letter?.eq_def] at h
  split at h <;> simp at h ⊢

/-- After the last digit of an escape the string goes on. -/
theorem inside_of_unit? {read : List Char} {high : Option Nat} {u : Nat}
    (h : unit? read high u = some s') (hs : s'.Reads cs ms) : Inside IsBody cs ms := by
  cases high with
  | some high =>
    simp only [unit?] at h
    split at h <;> cases h
    exact hs
  | none =>
    simp only [unit?] at h
    split at h
    · cases h
      exact hs
    split at h <;> cases h
    exact hs

/-- Before its four digits an escape has a `u`. -/
theorem inside_of_hex {read : List Char} {high : Option Nat}
    (h : (hex read high 3 0).Reads cs ms) :
    Inside (fun body => IsBody ('\\' :: body)) ('u' :: cs) ms := by
  refine h.cons ?_
  rintro _ ⟨ds, rest, rfl, hlen, hds, hrest⟩
  exact .hex hlen hds hrest

/-- **The step lemma**: what is demanded before a character, from what is demanded behind it. -/
theorem reads_of_step (h : s.step r c = some (s', ls)) (hs : s'.Reads cs ms) :
    s.Reads (c :: cs) (ls ++ ms) := by
  cases s with
  | gap =>
    obtain ⟨rfl, rfl⟩ := Prod.mk.inj (Option.some.inj h)
    exact cut_of_start hs
  | run read =>
    rw [step] at h
    split at h
    · obtain ⟨j, hj, heq⟩ := Option.map_eq_some_iff.1 h
      obtain ⟨rfl, rfl⟩ := Prod.mk.inj heq
      refine ⟨[], c :: cs, j, _, rfl, ?_, rfl, cut_of_start hs⟩
      rw [List.append_nil]
      exact Lexeme.spells_of_ofRun? hj
    · cases h
      obtain ⟨more, rest, j, ls', rfl, hspells, rfl, hrest⟩ := hs
      refine ⟨c :: more, rest, j, ls', rfl, ?_, rfl, hrest⟩
      simpa using hspells
  | text read =>
    rw [step] at h
    split at h
    · next hquote =>
      cases h
      exact ⟨[], cs, _, ms, by rw [hquote]; rfl, .nil, rfl, hs⟩
    next hquote =>
    split at h
    · next hslash =>
      cases h
      subst hslash
      exact hs.cons fun body hbody => hbody
    next hslash =>
    split at h
    · cases h
    · next hcontrol =>
      cases h
      exact hs.cons fun body => .plain hquote hslash (Nat.le_of_not_lt hcontrol)
  | escape read =>
    rw [step] at h
    split at h
    · next hu =>
      cases h
      subst hu
      exact inside_of_hex hs
    · obtain ⟨d, hd, heq⟩ := Option.map_eq_some_iff.1 h
      cases heq
      exact hs.cons fun body => .letter (mem_of_letter? hd)
  | hex read high left unit =>
    simp only [step] at h
    split at h
    · cases h
    · next d hd =>
      obtain ⟨s'', hs'', heq⟩ := Option.map_eq_some_iff.1 h
      cases heq
      refine (inside_of_unit? hs'' hs).cons fun body hbody => ?_
      exact ⟨[c], body, rfl, rfl, by simpa using isHexDigit_of_hexDigit? hd, hbody⟩
    · next d left hd =>
      cases h
      refine hs.cons ?_
      rintro _ ⟨ds, rest, rfl, hlen, hds, hrest⟩
      exact ⟨c :: ds, rest, rfl, congrArg Nat.succ hlen,
        List.forall_mem_cons.2 ⟨isHexDigit_of_hexDigit? hd, hds⟩, hrest⟩
  | half read high =>
    rw [step] at h
    split at h <;> cases h
    next hslash =>
    subst hslash
    exact hs.cons fun body hbody => hbody
  | halfEscape read high =>
    rw [step] at h
    split at h <;> cases h
    next hu =>
    subst hu
    exact inside_of_hex hs

/-- **What is cut into lexemes is made of their words.** -/
theorem reads_of_lexemes (h : s.lexemes r cs = some ls) : s.Reads cs ls := by
  fun_induction lexemes r s cs generalizing ls with
  | case1 =>
    cases h
    exact .nil
  | case2 read =>
    obtain ⟨j, hj, rfl⟩ := Option.map_eq_some_iff.1 h
    refine ⟨[], [], j, [], rfl, ?_, rfl, .nil⟩
    rw [List.append_nil]
    exact Lexeme.spells_of_ofRun? hj
  | case3 | case4 => cases h
  | case5 s c cs s' ls' hs ih =>
    obtain ⟨ms, hms, rfl⟩ := Option.map_eq_some_iff.1 h
    exact reads_of_step hs (ih hms)

end Scan

/-! ## Values -/

namespace Assembly

/-- What closes the open containers, innermost first. -/
def Closes : List OpenContainer → List Lexeme → Prop
  | [], ls => ls = []
  | .arr _ :: stack, ls => ∃ ms rest, ls = ms ++ rest ∧ IsItems ms ∧ Closes stack rest
  | .obj _ _ :: stack, ls => ∃ ms rest, ls = ms ++ rest ∧ IsMembers ms ∧ Closes stack rest

/-- Lexemes of which `P` holds, and what closes the open containers. -/
def Within (P : List Lexeme → Prop) (stack : List OpenContainer) (ls : List Lexeme) : Prop :=
  ∃ ms rest, ls = ms ++ rest ∧ P ms ∧ Closes stack rest

/-- The form of lexemes that complete an assembly. -/
def Completes : Assembly → List Lexeme → Prop
  | value stack, ls => Within IsValue stack ls
  | firstItem stack, ls => Within (fun ms => IsValue (.openArr :: ms)) stack ls
  | firstName stack, ls => Within (fun ms => IsValue (.openObj :: ms)) stack ls
  | name _ stack, ls => Within (fun ms => IsMembers (.comma :: ms)) stack ls
  | colon _ k stack, ls =>
    Within (fun ms => IsMembers (.comma :: .scalar (.str k) :: ms)) stack ls
  | next top stack, ls => Closes (top :: stack) ls
  | done _, ls => ls = []

variable {depth : Option Nat} {stack : List OpenContainer} {a b : Assembly} {l : Lexeme}
  {ls : List Lexeme}

theorem completes_deliver (j : Json) : (deliver j stack).Completes ls ↔ Closes stack ls := by
  cases stack with
  | nil => rfl
  | cons top stack => cases top <;> rfl

/-- One more lexeme. -/
theorem Within.cons {P Q : List Lexeme → Prop} (h : Within P stack ls)
    (hPQ : ∀ ms, P ms → Q (l :: ms)) : Within Q stack (l :: ls) := by
  obtain ⟨ms, rest, rfl, hms, hrest⟩ := h
  exact ⟨l :: ms, rest, rfl, hPQ ms hms, hrest⟩

theorem within_of_begin? (h : begin? depth stack l = some b) (hb : b.Completes ls) :
    Within IsValue stack (l :: ls) := by
  cases l with
  | scalar j =>
    cases h
    exact ⟨[.scalar j], ls, rfl, .scalar j, (completes_deliver j).1 hb⟩
  | openArr | openObj =>
    rw [begin?] at h
    split at h <;> cases h
    exact hb.cons fun ms hms => hms
  | _ => cases h

/-- **The step lemma**: what completes an assembly, from what completes it behind a lexeme. -/
theorem completes_of_step (h : a.step depth l = some b) (hb : b.Completes ls) :
    a.Completes (l :: ls) := by
  fun_cases step depth a l with
  | case1 stack => exact within_of_begin? h hb
  | case2 stack =>
    cases h
    exact ⟨[.closeArr], ls, rfl, .emptyArr, (completes_deliver _).1 hb⟩
  | case3 stack l hl =>
    rw [step.eq_3 _ _ _ hl] at h
    obtain ⟨vs, rest, heq, hvs, ms, rest', rfl, hms, hrest'⟩ := within_of_begin? h hb
    exact ⟨vs ++ ms, rest', by rw [heq, List.append_assoc], .arr hvs hms, hrest'⟩
  | case4 stack =>
    cases h
    exact ⟨[.closeObj], ls, rfl, .emptyObj, (completes_deliver _).1 hb⟩
  | case5 stack k =>
    cases h
    refine Within.cons hb ?_
    rintro _ ⟨⟩
    next hvs hms => exact .obj k hvs hms
  | case6 members stack k =>
    cases h
    exact Within.cons hb fun ms hms => hms
  | case7 members k stack =>
    cases h
    obtain ⟨vs, rest, rfl, hvs, ms, rest', rfl, hms, hrest'⟩ := hb
    exact ⟨.colon :: (vs ++ ms), rest', by simp, .next k hvs hms, hrest'⟩
  | case8 items stack =>
    cases h
    obtain ⟨vs, rest, rfl, hvs, ms, rest', rfl, hms, hrest'⟩ := hb
    exact ⟨.comma :: (vs ++ ms), rest', by simp, .next hvs hms, hrest'⟩
  | case9 items stack =>
    cases h
    exact ⟨[.closeArr], ls, rfl, .close, (completes_deliver _).1 hb⟩
  | case10 members k stack =>
    cases h
    exact Within.cons hb fun ms hms => hms
  | case11 members k stack =>
    cases h
    exact ⟨[.closeObj], ls, rfl, .close, (completes_deliver _).1 hb⟩
  | case12 a l => simp_all [step]

/-- **What is assembled to a value is one.** -/
theorem completes_of_run {j : Json} (h : a.run depth ls = some b) (hb : b.result? = some j) :
    a.Completes ls := by
  induction ls generalizing a with
  | nil =>
    obtain rfl : a = b := Option.some.inj h
    cases a with
    | done k => rfl
    | _ => cases hb
  | cons l ls ih =>
    obtain ⟨c, hc, h⟩ := Option.bind_eq_some_iff.1 h
    exact completes_of_step hc (ih h)

end Assembly

/-! ## Texts -/

namespace Json

/-- **A text that is read is JSON text.** -/
theorem isText_of_read? {r : Reading} {s : String} {j : Json} (h : read? r s = some j) :
    IsText s := by
  obtain ⟨ls, hls, h⟩ := Option.bind_eq_some_iff.1 h
  obtain ⟨a, ha, hj⟩ := Option.bind_eq_some_iff.1 h
  obtain ⟨vs, rest, rfl, hvs, rfl⟩ := Assembly.completes_of_run ha hj
  rw [List.append_nil] at hls
  exact ⟨vs, Scan.reads_of_lexemes hls, hvs⟩

/-- **Indented text is JSON text**, whatever its depth and its numbers. -/
theorem isText_pretty (j : Json) : IsText j.pretty := by
  have hread : read? ⟨none, .nearest⟩ j.pretty = some (j.renumber id).merged := by
    rw [read?_pretty]
    exact read?_text_eq Number.read?_print nofun
  exact isText_of_read? hread

end Json

/-! ## Texts that are none -/

namespace Grammar

variable {l : Lexeme} {cs word : List Char} {ls : List Lexeme}

theorem IsNumber.digit (h : IsNumber word) : ∃ c ∈ word.head?, c = '-' ∨ IsDigit c := by
  have hunsigned {cs : List Char} (h : IsUnsigned cs) : ∃ c ∈ cs.head?, IsDigit c := by
    obtain ⟨⟨⟨hne, hds⟩, -⟩, -, -⟩ := h
    obtain ⟨d, ds, rfl⟩ := List.exists_cons_of_ne_nil hne
    exact ⟨d, rfl, hds d List.mem_cons_self⟩
  cases h with
  | unsigned h =>
    obtain ⟨c, hc, hd⟩ := hunsigned h
    exact ⟨c, hc, .inr hd⟩
  | negative h => exact ⟨'-', rfl, .inl rfl⟩

theorem Spells.ne_nil (h : Spells l word) : word ≠ [] := by
  cases h with
  | number h =>
    rintro rfl
    obtain ⟨c, hc, -⟩ := h.digit
    cases hc
  | _ => simp

theorem Spells.openObj_of_cons (h : Spells l ('{' :: cs)) : l = .openObj ∧ cs = [] := by
  generalize hword : '{' :: cs = word at h
  cases h with
  | openObj => exact ⟨rfl, (List.cons.inj hword).2⟩
  | number h =>
    obtain ⟨c, hc, hdigit⟩ := h.digit
    rw [← hword] at hc
    cases hc
    exact absurd hdigit (by decide)
  | _ => cases hword

/-- The empty text has no words. -/
theorem Cut.eq_nil (h : Cut [] ls) : ls = [] := by
  generalize hcs : [] = cs at h
  cases h with
  | nil => rfl
  | blank => cases hcs
  | word hl => exact absurd (List.append_eq_nil_iff.1 hcs.symm).1 hl.ne_nil

theorem Cut.openObj (h : Cut ('{' :: cs) ls) : ∃ ms, ls = .openObj :: ms ∧ Cut cs ms := by
  generalize hword : '{' :: cs = text at h
  cases h with
  | nil => cases hword
  | blank hc =>
    cases hword
    exact absurd hc (by decide)
  | @word l word rest ls hl hrest =>
    obtain ⟨c, word, rfl⟩ := List.exists_cons_of_ne_nil hl.ne_nil
    cases hword
    obtain ⟨rfl, rfl⟩ := hl.openObj_of_cons
    exact ⟨ls, rfl, hrest⟩

end Grammar

/-- JSON text has a word. -/
theorem Json.not_isText_empty : ¬IsText "" := by
  rintro ⟨ls, hcut, hvalue⟩
  rw [hcut.eq_nil] at hvalue
  cases hvalue

/-- An object has an end. -/
theorem Json.not_isText_brace : ¬IsText "\x7b" := by
  rintro ⟨ls, hcut, hvalue⟩
  obtain ⟨ms, rfl, hms⟩ := Cut.openObj hcut
  rw [hms.eq_nil] at hvalue
  cases hvalue

end DocPointer
