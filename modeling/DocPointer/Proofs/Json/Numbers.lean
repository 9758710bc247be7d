/-
  Printed numbers are read back.

  A `Spelling` is what the text of an unsigned number consists of.  It is read part by
  part, and the text of a double is a spelling of its shortest decimal, possibly with
  zeros at its end; so the double is found again if it is read to the nearest one
  (`read?_print`).  No character of the text ends a run.
-/
import DocPointer.Json.Lexeme
import DocPointer.Json.Printer
import DocPointer.Proofs.Number.Decimal
import DocPointer.Proofs.Text.Digits

namespace DocPointer

open Digits

/-! ## Spellings -/

/-- The parts of the text of an unsigned number. -/
structure Spelling where
  whole : List Char
  fraction : Option (List Char)
  exponent : Option Int

namespace Spelling

/-- The text of a fraction. -/
def fractionText : Option (List Char) → List Char
  | none => []
  | some fs => '.' :: fs

/-- The text of an exponent. -/
def exponentText : Option Int → List Char
  | none => []
  | some e => Number.printExponent e

/-- The whole text. -/
def text (s : Spelling) : List Char :=
  s.whole ++ (fractionText s.fraction ++ exponentText s.exponent)

/-- The decimal it stands for. -/
def decimal (negative : Bool) (s : Spelling) : Decimal :=
  ⟨negative, s.whole, s.fraction.getD [], s.exponent.getD 0⟩

/-- Each part has digits, and the integer part no zero in front. -/
structure Valid (s : Spelling) : Prop where
  nonempty : s.whole ≠ []
  digits : ∀ c ∈ s.whole, isDigit c = true
  noZero : s.whole.head? = some '0' → s.whole = ['0']
  fraction : ∀ fs, s.fraction = some fs → fs ≠ [] ∧ ∀ c ∈ fs, isDigit c = true

end Spelling

namespace Number

variable {ds rest : List Char}

theorem digits?_append (hne : ds ≠ []) (hd : ∀ c ∈ ds, isDigit c = true)
    (hr : ∀ c ∈ rest.head?, isDigit c = false) : digits? (ds ++ rest) = some (ds, rest) := by
  have htake : rest.takeWhile isDigit = [] ∧ rest.dropWhile isDigit = rest := by
    cases rest with
    | nil => exact ⟨rfl, rfl⟩
    | cons c rest => simp [hr c rfl]
  rw [digits?, List.takeWhile_append_of_pos hd, List.dropWhile_append_of_pos hd, htake.1, htake.2,
    List.append_nil]
  cases ds with
  | nil => exact absurd rfl hne
  | cons c ds => rfl

theorem digits?_ofNat (n : Nat) : digits? (ofNat n) = some (ofNat n, []) := by
  have h : digits? (ofNat n ++ []) = some (ofNat n, []) :=
    digits?_append (ofNat_ne_nil n) (fun c => isDigit_of_mem_ofNat) (by simp)
  rwa [List.append_nil] at h

theorem whole?_append (hne : ds ≠ []) (hd : ∀ c ∈ ds, isDigit c = true)
    (hz : ds.head? = some '0' → ds = ['0']) (hr : ∀ c ∈ rest.head?, isDigit c = false) :
    whole? (ds ++ rest) = some (ds, rest) := by
  rw [whole?, digits?_append hne hd hr]
  split
  · next h =>
    cases h
    simp at hz
  · rfl

theorem exponent?_text (e : Option Int) : exponent? (Spelling.exponentText e) = some (e, []) := by
  cases e with
  | none => rfl
  | some e =>
    simp only [Spelling.exponentText, printExponent, exponent?]
    split
    · simp only [signed?, digits?_ofNat, value_ofNat, Option.map_some, Option.some.injEq,
        Prod.mk.injEq, and_true]
      omega
    · simp only [signed?, digits?_ofNat, value_ofNat, Option.map_some, Option.some.injEq,
        Prod.mk.injEq, and_true]
      omega

/-- What follows the digits of a part does not begin with a digit. -/
theorem head_exponentText (e : Option Int) :
    ∀ c ∈ (Spelling.exponentText e).head?, isDigit c = false := by
  cases e with
  | none => simp [Spelling.exponentText]
  | some e =>
    rintro c ⟨⟩
    rfl

theorem fraction?_text {fs : Option (List Char)} (e : Option Int)
    (hf : ∀ f, fs = some f → f ≠ [] ∧ ∀ c ∈ f, isDigit c = true) :
    fraction? (Spelling.fractionText fs ++ Spelling.exponentText e) =
      some (fs, Spelling.exponentText e) := by
  cases fs with
  | none =>
    cases e with
    | none => rfl
    | some e => rfl
  | some f =>
    obtain ⟨hne, hd⟩ := hf f rfl
    simp only [Spelling.fractionText, List.cons_append, fraction?,
      digits?_append hne hd (head_exponentText e), Option.map_some]

/-- A spelling is read part by part. -/
theorem unsigned?_text (r : Rounding) (negative : Bool) {s : Spelling} (h : s.Valid) :
    unsigned? r negative s.text =
      match s.fraction, s.exponent with
      | none, none => ofWhole? r negative s.whole
      | _, _ => ((s.decimal negative).round r).map .float := by
  have hhead : ∀ c ∈ (Spelling.fractionText s.fraction ++
      Spelling.exponentText s.exponent).head?, isDigit c = false := by
    cases s.fraction with
    | none => exact head_exponentText s.exponent
    | some f =>
      rintro c ⟨⟩
      rfl
  rw [unsigned?, Spelling.text, whole?_append h.nonempty h.digits h.noZero hhead]
  simp only [fraction?_text s.exponent h.fraction, exponent?_text]
  rfl

/-! ## The text of a double -/

theorem ofNat_noZero {n : Nat} (h : (ofNat n).head? = some '0') : ofNat n = ['0'] := by
  rcases Nat.eq_zero_or_pos n with rfl | hn
  · exact Nat.toDigits_zero 10
  · exact absurd h (head?_ofNat (Nat.ne_of_gt hn))

/-- The text spells `digits · 10 ^ exponent`, with a fraction or an exponent, and with few
    digits before the point. -/
def Spells (digits : Nat) (exponent : Int) (cs : List Char) : Prop :=
  ∃ s : Spelling, s.Valid ∧ cs = s.text ∧ (s.fraction = none → s.exponent ≠ none) ∧
    s.whole.length ≤ 16 ∧ ∃ k : Nat, value (s.whole ++ s.fraction.getD []) = digits * 10 ^ k ∧
      s.exponent.getD 0 - (s.fraction.getD []).length + k = exponent

theorem isDigit_of_mem_zeros {k : Nat} {c : Char} (h : c ∈ List.replicate k '0') :
    isDigit c = true := by
  rw [List.eq_of_mem_replicate h]
  rfl

/-- A whole number, with a zero behind the point. -/
theorem spells_whole {n k : Nat} (h0 : n = 0 → k = 0) (hlen : (ofNat n).length + k ≤ 16) :
    Spells n k (ofNat n ++ List.replicate k '0' ++ ['.', '0']) := by
  refine ⟨⟨ofNat n ++ List.replicate k '0', some ['0'], none⟩,
    ⟨by simp [ofNat_ne_nil], ?_, ?_, ?_⟩,
    by simp [Spelling.text, Spelling.fractionText, Spelling.exponentText], by simp, by simpa using hlen,
    k + 1, ?_, by simp⟩
  · exact List.forall_mem_append.2 ⟨fun c => isDigit_of_mem_ofNat, fun c => isDigit_of_mem_zeros⟩
  · intro hhead
    rw [List.head?_append_of_ne_nil _ (ofNat_ne_nil n)] at hhead
    rcases Nat.eq_zero_or_pos n with hn | hn
    · rw [h0 hn, ofNat_noZero hhead]
      rfl
    · exact absurd hhead (head?_ofNat (Nat.ne_of_gt hn))
  · rintro fs ⟨⟩
    exact ⟨by simp, fun c => isDigit_of_mem_zeros (k := 1)⟩
  · simp only [Option.getD_some, List.append_assoc, ← List.replicate_succ' (n := k),
      value_append_zeros, value_ofNat]

/-- The point stands among the digits. -/
theorem spells_middle {n p : Nat} (hp : 0 < p) (hlt : p < (ofNat n).length) (hlen : p ≤ 16) :
    Spells n (p - (ofNat n).length) ((ofNat n).take p ++ '.' :: (ofNat n).drop p) := by
  refine ⟨⟨(ofNat n).take p, some ((ofNat n).drop p), none⟩, ⟨?_, ?_, ?_, ?_⟩,
    by simp [Spelling.text, Spelling.fractionText, Spelling.exponentText], by simp,
    (List.length_take_le ..).trans hlen, 0, ?_, ?_⟩
  · simp [Nat.ne_of_gt hp, ofNat_ne_nil]
  · intro c hc
    exact isDigit_of_mem_ofNat (List.mem_of_mem_take hc)
  · intro hhead
    rw [List.head?_take, if_neg (Nat.ne_of_gt hp)] at hhead
    rw [ofNat_noZero hhead] at hlt
    simp only [List.length_singleton] at hlt
    omega
  · rintro fs ⟨⟩
    exact ⟨by simpa using hlt, fun c hc => isDigit_of_mem_ofNat (List.mem_of_mem_drop hc)⟩
  · simp [value_ofNat]
  · simp only [Option.getD_none, Option.getD_some, List.length_drop]
    omega

/-- The point stands in front of the digits. -/
theorem spells_front (n k : Nat) :
    Spells n (-(k : Int) - (ofNat n).length) ('0' :: '.' :: List.replicate k '0' ++ ofNat n) := by
  refine ⟨⟨['0'], some (List.replicate k '0' ++ ofNat n), none⟩, ⟨by simp, ?_, fun _ => rfl, ?_⟩,
    by simp [Spelling.text, Spelling.fractionText, Spelling.exponentText], by simp, by simp, 0, ?_, ?_⟩
  · intro c hc
    rw [List.mem_singleton.1 hc]
    rfl
  · rintro fs ⟨⟩
    exact ⟨by simp [ofNat_ne_nil], List.forall_mem_append.2
      ⟨fun c => isDigit_of_mem_zeros, fun c => isDigit_of_mem_ofNat⟩⟩
  · simp [value_cons_zero, value_zeros_append, value_ofNat]
  · simp only [Option.getD_none, Option.getD_some, List.length_append, List.length_replicate]
    omega

/-- With an exponent, one digit stands before the point. -/
theorem spells_scientific {n : Nat} {d : Char} {ds : List Char} (h : ofNat n = d :: ds) (e : Int) :
    Spells n (e - ds.length) (match ds with
      | [] => d :: printExponent e
      | _ => d :: '.' :: ds ++ printExponent e) := by
  have hall : ∀ c ∈ d :: ds, isDigit c = true := h ▸ fun c => isDigit_of_mem_ofNat
  have hv : value (d :: ds) = n := h ▸ value_ofNat n
  obtain ⟨hd, hds⟩ := List.forall_mem_cons.1 hall
  cases ds with
  | nil =>
    refine ⟨⟨[d], none, some e⟩, ⟨by simp, by simpa using hd, by simp, by simp⟩, rfl, by simp,
      by simp, 0, ?_, ?_⟩
    · simpa using hv
    · simp
  | cons c ds =>
    refine ⟨⟨[d], some (c :: ds), some e⟩, ⟨by simp, by simpa using hd, by simp, ?_⟩, ?_,
      by simp, by simp, 0, ?_, ?_⟩
    · rintro fs ⟨⟩
      exact ⟨by simp, hds⟩
    · simp [Spelling.text, Spelling.fractionText, Spelling.exponentText]
    · simpa using hv
    · simp

/-- What is printed for a decimal spells it. -/
theorem spells_printDecimal {n : Nat} {e : Int} (h0 : n = 0 → e = 0) :
    Spells n e (printDecimal (ofNat n) e) := by
  have hlen := List.length_pos_iff.2 (ofNat_ne_nil n)
  simp only [printDecimal]
  split
  · next hpos =>
    obtain ⟨k, rfl⟩ := Int.eq_ofNat_of_zero_le hpos.1
    exact spells_whole (fun hn => by simpa using h0 hn) (by omega)
  split
  · next hneg hmid =>
    obtain ⟨p, hp⟩ := Int.eq_ofNat_of_zero_le (Int.le_of_lt hmid.1)
    have := spells_middle (n := n) (p := p) (by omega) (by omega) (by omega)
    rwa [hp, Int.toNat_natCast, (by omega : e = p - (ofNat n).length)]
  split
  · next hneg hmid hlow =>
    obtain ⟨k, hk⟩ := Int.eq_ofNat_of_zero_le (by omega : 0 ≤ -((ofNat n).length + e))
    have := spells_front n k
    rwa [hk, Int.toNat_natCast, (by omega : e = -(k : Int) - (ofNat n).length)]
  · cases hds : ofNat n with
    | nil => exact absurd hds (ofNat_ne_nil n)
    | cons d ds =>
      have := spells_scientific hds ((d :: ds).length + e - 1)
      rw [(by simp; omega : ((d :: ds).length + e - 1 - ds.length : Int) = e)] at this
      cases ds with
      | nil => exact this
      | cons c ds => exact this

theorem shortest_zero {x : Binary .double} (h : x.shortest.1 = 0) : x.shortest.2 = 0 := by
  simp only [Binary.shortest] at h ⊢
  split at h
  · next hz => rw [if_pos hz]
  · next hz =>
    rw [if_neg hz]
    exact Binary.withoutZeros_exponent h

/-! ## Reading what was printed -/

/-- The decimal that a text spells, and how it is read. -/
theorem Spells.decimal {n : Nat} {e : Int} {cs : List Char} (h : Spells n e cs) (negative : Bool) :
    ∃ d : Decimal, d.whole.length ≤ 16 ∧ d.nearest = Binary.ofDecimal negative n e ∧
      ∀ r, unsigned? r negative cs = (d.round r).map .float := by
  obtain ⟨s, hs, rfl, hpart, hlen, k, hv, he⟩ := h
  refine ⟨s.decimal negative, hlen, ?_, fun r => ?_⟩
  · rw [Decimal.nearest, Spelling.decimal, hv, Binary.ofDecimal_mul, he]
  · rw [unsigned?_text _ _ hs]
    split
    · next hf hx => exact absurd hx (hpart hf)
    · rfl

theorem unsigned?_of_spells {n : Nat} {e : Int} {cs : List Char} (h : Spells n e cs)
    (negative : Bool) :
    unsigned? .nearest negative cs = (Binary.ofDecimal negative n e).map .float := by
  obtain ⟨d, -, hd, hround⟩ := h.decimal negative
  rw [hround .nearest, Decimal.round, hd]

/-- Doubles that are written are within bounds when they are read, in whichever way. -/
theorem exists_unsigned?_of_spells {n : Nat} {e : Int} {cs : List Char} (h : Spells n e cs)
    (r : Rounding) {negative : Bool} {x : Binary .double}
    (hx : Binary.ofDecimal negative n e = some x)
    (hbelow : x.toRat ≤ (2 ^ 53 - 4) * 2 ^ (971 : Int)) :
    ∃ m, unsigned? r negative cs = some m := by
  obtain ⟨d, hlen, hd, hround⟩ := h.decimal negative
  rw [hround r]
  cases r with
  | nearest => exact ⟨.float x, by rw [Decimal.round, hd, hx]; rfl⟩
  | stepwise =>
    obtain ⟨y, hy⟩ :=
      Decimal.exists_stepwise_of_nearest (hlen.trans (by decide)) (hd.trans hx) hbelow
    exact ⟨.float y, by rw [Decimal.round, hy]; rfl⟩

theorem unsigned?_ofNat (r : Rounding) (negative : Bool) (n : Nat) :
    unsigned? r negative (ofNat n) = ofWhole? r negative (ofNat n) := by
  have hs : Spelling.Valid ⟨ofNat n, none, none⟩ :=
    ⟨ofNat_ne_nil n, fun c => isDigit_of_mem_ofNat, ofNat_noZero, by simp⟩
  simpa [Spelling.text, Spelling.fractionText, Spelling.exponentText] using
    unsigned?_text r negative hs

/-- A text that begins with a digit has no sign. -/
theorem read?_of_head {r : Rounding} {c : Char} {cs : List Char} (hc : isDigit c = true) :
    read? r (c :: cs) = unsigned? r false (c :: cs) := by
  rw [read?]
  rintro _ ⟨⟩
  cases hc

theorem Spells.head {n : Nat} {e : Int} {cs : List Char} (h : Spells n e cs) :
    ∃ c cs', cs = c :: cs' ∧ isDigit c = true := by
  obtain ⟨s, hs, rfl, -⟩ := h
  cases hw : s.whole with
  | nil => exact absurd hw hs.nonempty
  | cons c ds => exact ⟨c, _, by rw [Spelling.text, hw]; rfl, hs.digits c (by simp [hw])⟩

theorem read?_ofInt (r : Rounding) {n : Int} 
    (h : -0x8000000000000000 ≤ n ∧ n < 0x10000000000000000) :
    read? r (ofInt n) = some (.int n h) := by
  have hint : ofInt? n = some (.int n h) := dif_pos h
  rw [ofInt]
  split
  · next hn =>
    have hne : n.natAbs ≠ 0 := by omega
    have habs : -(n.natAbs : Int) = n := by omega
    rw [read?, unsigned?_ofNat, ofWhole?, value_ofNat]
    simp only [hne, and_false, if_false, if_true, habs, hint]
  · next hn =>
    have habs : (n.natAbs : Int) = n := by omega
    cases hds : ofNat n.natAbs with
    | nil => exact absurd hds (ofNat_ne_nil _)
    | cons c cs =>
      have hc : isDigit c = true := isDigit_of_mem_ofNat (hds ▸ List.mem_cons_self)
      rw [read?_of_head hc, ← hds, unsigned?_ofNat, ofWhole?, value_ofNat]
      simp [habs, hint]

/-- **A printed number is read back**, if doubles are read to the nearest one. -/
theorem read?_print (n : Number) : read? .nearest n.print = some n := by
  cases n with
  | int n h => exact read?_ofInt .nearest h
  | float x =>
    have hs : Spells x.shortest.1 x.shortest.2 (printDecimal (ofNat x.shortest.1) x.shortest.2) :=
      spells_printDecimal shortest_zero
    have hx : Binary.ofDecimal x.negative x.shortest.1 x.shortest.2 = some x :=
      Binary.ofDecimal_shortest (by decide) (by decide) x
    simp only [print]
    cases hneg : x.negative with
    | true =>
      rw [if_pos rfl, List.singleton_append, read?, unsigned?_of_spells hs, ← hneg, hx]
      rfl
    | false =>
      obtain ⟨c, cs, hcs, hc⟩ := hs.head
      rw [if_neg Bool.false_ne_true, List.nil_append, hcs, read?_of_head hc, ← hcs,
        unsigned?_of_spells hs, ← hneg, hx]
      rfl

/-- The three greatest doubles are read back step by step, or as one of the others. -/
theorem exists_read?_top {x : Binary .double} (h : (x.mantissa, x.exponent) ∈
    [(2 ^ 53 - 1, (971 : Int)), (2 ^ 52 - 1, 972), (2 ^ 53 - 3, 971)]) :
    ∃ m, read? .stepwise (print (.float x)) = some m := by
  have h₁ : ∀ negative, (read? .stepwise
      (print (.float ⟨negative, 2 ^ 53 - 1, 971, by decide⟩))).isSome = true := by decide +kernel
  have h₂ : ∀ negative, (read? .stepwise
      (print (.float ⟨negative, 2 ^ 52 - 1, 972, by decide⟩))).isSome = true := by decide +kernel
  have h₃ : ∀ negative, (read? .stepwise
      (print (.float ⟨negative, 2 ^ 53 - 3, 971, by decide⟩))).isSome = true := by decide +kernel
  obtain ⟨negative, m, e, hc⟩ := x
  simp only [List.mem_cons, Prod.mk.injEq, List.not_mem_nil, or_false] at h
  rcases h with ⟨rfl, rfl⟩ | ⟨rfl, rfl⟩ | ⟨rfl, rfl⟩
  · exact Option.isSome_iff_exists.1 (h₁ negative)
  · exact Option.isSome_iff_exists.1 (h₂ negative)
  · exact Option.isSome_iff_exists.1 (h₃ negative)

/-- **A printed number is read as a number**, in whichever way decimals are rounded. -/
theorem exists_read?_print (r : Rounding) (n : Number) : ∃ m, read? r n.print = some m := by
  cases n with
  | int n h => exact ⟨_, read?_ofInt r h⟩
  | float x =>
    rcases Binary.toRat_le_or x with hbelow | htop
    · have hs : Spells x.shortest.1 x.shortest.2 (printDecimal (ofNat x.shortest.1) x.shortest.2) :=
        spells_printDecimal shortest_zero
      have hx : Binary.ofDecimal x.negative x.shortest.1 x.shortest.2 = some x :=
        Binary.ofDecimal_shortest (by decide) (by decide) x
      have hread := exists_unsigned?_of_spells hs r hx hbelow
      simp only [print]
      cases hneg : x.negative with
      | true =>
        rw [if_pos rfl, List.singleton_append, read?, ← hneg]
        exact hread
      | false =>
        obtain ⟨c, cs, hcs, hc⟩ := hs.head
        rw [if_neg Bool.false_ne_true, List.nil_append, hcs, read?_of_head hc, ← hcs, ← hneg]
        exact hread
    · cases r with
      | nearest => exact ⟨_, read?_print _⟩
      | stepwise => exact exists_read?_top htop

/-! ## Characters -/

theorem mem_of_endsRun {c : Char} (h : Scan.endsRun c = true) :
    c ∈ [' ', '\t', '\n', '\r', '"', '[', ']', '{', '}', ',', ':'] := by
  simp only [Scan.endsRun, Scan.isBlank, Bool.or_eq_true, decide_eq_true_eq] at h
  rcases h with (h | rfl) | h
  · rcases h with ((rfl | rfl) | rfl) | rfl <;> simp
  · simp
  · unfold Lexeme.mark? at h
    split at h
    all_goals first | simp; done | cases h

theorem endsRun_of_isDigit {c : Char} (h : isDigit c = true) : Scan.endsRun c = false := by
  have hnone : [' ', '\t', '\n', '\r', '"', '[', ']', '{', '}', ',', ':'].any isDigit = false := rfl
  rw [← Bool.not_eq_true]
  intro he
  exact List.any_eq_false.1 hnone c (mem_of_endsRun he) h

theorem endsRun_ofNat {n : Nat} : ∀ c ∈ ofNat n, Scan.endsRun c = false :=
  fun _ hc => endsRun_of_isDigit (isDigit_of_mem_ofNat hc)

theorem endsRun_text {s : Spelling} (h : s.Valid) : ∀ c ∈ s.text, Scan.endsRun c = false := by
  refine List.forall_mem_append.2 ⟨fun c hc => endsRun_of_isDigit (h.digits c hc),
    List.forall_mem_append.2 ⟨?_, ?_⟩⟩
  · cases hf : s.fraction with
    | none => simp [Spelling.fractionText]
    | some fs =>
      exact List.forall_mem_cons.2
        ⟨rfl, fun c hc => endsRun_of_isDigit ((h.fraction fs hf).2 c hc)⟩
  · cases s.exponent with
    | none => simp [Spelling.exponentText]
    | some e =>
      refine List.forall_mem_cons.2 ⟨rfl, List.forall_mem_cons.2 ⟨?_, endsRun_ofNat⟩⟩
      split <;> rfl

/-- No character of a number ends a run. -/
theorem endsRun_print (n : Number) : ∀ c ∈ n.print, Scan.endsRun c = false := by
  cases n with
  | int n h =>
    rw [print, ofInt]
    split
    · exact List.forall_mem_cons.2 ⟨rfl, endsRun_ofNat⟩
    · exact endsRun_ofNat
  | float x =>
    obtain ⟨s, hs, htext, -⟩ := spells_printDecimal (n := x.shortest.1) shortest_zero
    simp only [print]
    refine List.forall_mem_append.2 ⟨?_, htext ▸ endsRun_text hs⟩
    split
    · intro c hc
      rw [List.mem_singleton.1 hc]
      rfl
    · simp

/-- A number begins with its sign or a digit. -/
theorem head_print (n : Number) : ∃ c cs, n.print = c :: cs ∧ (c = '-' ∨ isDigit c = true) := by
  cases n with
  | int n h =>
    rw [print, ofInt]
    split
    · exact ⟨_, _, rfl, .inl rfl⟩
    · cases hds : ofNat n.natAbs with
      | nil => exact absurd hds (ofNat_ne_nil _)
      | cons c cs => exact ⟨c, cs, rfl, .inr (isDigit_of_mem_ofNat (hds ▸ List.mem_cons_self))⟩
  | float x =>
    obtain ⟨c, cs, hcs, hc⟩ := (spells_printDecimal (n := x.shortest.1) shortest_zero).head
    simp only [print]
    split
    · exact ⟨_, _, rfl, .inl rfl⟩
    · exact ⟨c, cs, hcs, .inr hc⟩

end Number

end DocPointer
