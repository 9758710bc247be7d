/-
  A value is read back from its text.

  The assembly takes the lexemes of a value as it would take the value itself, whatever
  containers are open around it, if there is room for those of the value.  So the text of a
  value is read as that value, with its numbers as they are read and a name that comes twice
  put once (`read?_text_eq`); a well-formed one is found again (`ofBytes?_toBytes`), if
  containers may nest without bound and doubles are read to the nearest one.
-/
import DocPointer.Json.Reader
import DocPointer.Proofs.Json.Lexemes
import DocPointer.Proofs.Json.Wellformed

namespace DocPointer

namespace Members

variable {α : Type} {name : String} {v : α} {ms : Members α}

/-- A new name comes last. -/
theorem put_eq_append (h : name ∉ names ms) : put name v ms = ms ++ [(name, v)] := by
  induction ms with
  | nil => rfl
  | cons m ms ih =>
    obtain ⟨k, w⟩ := m
    obtain ⟨hk, hms⟩ := not_or.1 (mt List.mem_cons.2 h)
    rw [put, if_neg (Ne.symm hk), ih hms]
    rfl

theorem notMem_of_nodup {ns : Members α} (h : (names (ms ++ (name, v) :: ns)).Nodup) :
    name ∉ names ms := by
  intro hm
  rw [names, List.map_append, List.nodup_append] at h
  exact h.2.2 name hm name (by simp) rfl

/-- Members with distinct names are all kept, in their order. -/
theorem ofList_of_nodup (h : (names ms).Nodup) : ofList ms = ms := by
  have hfold (ms acc : Members α) (h : (names (acc ++ ms)).Nodup) :
      ms.foldl (fun acc m => put m.1 m.2 acc) acc = acc ++ ms := by
    induction ms generalizing acc with
    | nil => exact (List.append_nil acc).symm
    | cons m ms ih =>
      rw [List.foldl_cons, put_eq_append (notMem_of_nodup h), ih _ (by simpa using h),
        List.append_assoc]
      rfl
  exact hfold ms [] h

end Members

/-! ## What is read of a value -/

namespace Json

mutual

/-- How deep containers nest in a value. -/
def height : Json → Nat
  | arr xs => heightOfItems xs + 1
  | obj ms => heightOfMembers ms + 1
  | _ => 0

/-- How deep containers nest in items. -/
def heightOfItems : List Json → Nat
  | [] => 0
  | x :: xs => max (height x) (heightOfItems xs)

/-- How deep containers nest in members. -/
def heightOfMembers : List (String × Json) → Nat
  | [] => 0
  | (_, v) :: ms => max (height v) (heightOfMembers ms)

end

mutual

/-- The value with the members of each object put one after the other. -/
def merged : Json → Json
  | arr xs => .arr (mergedItems xs)
  | obj ms => .obj (Members.ofList (mergedMembers ms))
  | j => j

/-- The items, each merged. -/
def mergedItems : List Json → List Json
  | [] => []
  | x :: xs => merged x :: mergedItems xs

/-- The members, the value of each merged. -/
def mergedMembers : List (String × Json) → List (String × Json)
  | [] => []
  | (k, v) :: ms => (k, merged v) :: mergedMembers ms

end

mutual

/-- In a well-formed value there is nothing to merge. -/
theorem merged_of_wellformed : ∀ {j : Json}, j.Wellformed → j.merged = j
  | .null, _ | .bool _, _ | .num _, _ | .str _, _ => rfl
  | .arr xs, h => by rw [merged, mergedItems_of_wellformed h]
  | .obj ms, h => by rw [merged, mergedMembers_of_wellformed h.2, Members.ofList_of_nodup h.1]

theorem mergedItems_of_wellformed : ∀ {xs : List Json}, WellformedItems xs → mergedItems xs = xs
  | [], _ => rfl
  | x :: xs, h => by rw [mergedItems, merged_of_wellformed h.1, mergedItems_of_wellformed h.2]

theorem mergedMembers_of_wellformed : ∀ {ms : List (String × Json)}, WellformedMembers ms →
    mergedMembers ms = ms
  | [], _ => rfl
  | (k, v) :: ms, h => by
    rw [mergedMembers, merged_of_wellformed h.1, mergedMembers_of_wellformed h.2]

end

mutual

theorem height_renumber (f : Number → Number) : ∀ j : Json, (j.renumber f).height = j.height
  | .null | .bool _ | .num _ | .str _ => rfl
  | .arr xs => by rw [renumber, height, height, heightOfItems_renumber f xs]
  | .obj ms => by rw [renumber, height, height, heightOfMembers_renumber f ms]

theorem heightOfItems_renumber (f : Number → Number) : ∀ xs : List Json,
    heightOfItems (renumberItems f xs) = heightOfItems xs
  | [] => rfl
  | x :: xs => by
    rw [renumberItems, heightOfItems, heightOfItems, height_renumber f x,
      heightOfItems_renumber f xs]

theorem heightOfMembers_renumber (f : Number → Number) : ∀ ms : List (String × Json),
    heightOfMembers (renumberMembers f ms) = heightOfMembers ms
  | [] => rfl
  | (k, v) :: ms => by
    rw [renumberMembers, heightOfMembers, heightOfMembers, height_renumber f v,
      heightOfMembers_renumber f ms]

end

end Json

/-- So many containers may be open. -/
def Room (depth : Option Nat) (n : Nat) : Prop := ∀ d, depth = some d → n ≤ d

theorem Room.mono {depth : Option Nat} {m n : Nat} (h : Room depth n) (hm : m ≤ n) : Room depth m :=
  fun d hd => Nat.le_trans hm (h d hd)

theorem Room.fits {depth : Option Nat} {n : Nat} (h : Room depth (n + 1)) :
    Assembly.fits depth n = true := by
  cases depth with
  | none => rfl
  | some d => exact decide_eq_true (h d rfl)

namespace Assembly

variable {depth : Option Nat} {stack : List OpenContainer} {ls : List Lexeme}

/-- Where the first item of an array is due, a value begins as anywhere else. -/
theorem run_firstItem (j : Json) (ls : List Lexeme) :
    (firstItem stack).run depth (j.lexemes ++ ls) =
      (value (.arr [] :: stack)).run depth (j.lexemes ++ ls) := by
  cases j <;> rfl

theorem run_firstItems (x : Json) (xs : List Json) (ls : List Lexeme) :
    (firstItem stack).run depth (Json.itemLexemes (x :: xs) ++ ls) =
      (value (.arr [] :: stack)).run depth (Json.itemLexemes (x :: xs) ++ ls) := by
  cases xs with
  | nil =>
    rw [Json.itemLexemes, List.append_assoc]
    exact run_firstItem x _
  | cons y xs =>
    show (firstItem stack).run depth ((x.lexemes ++ .comma :: Json.itemLexemes (y :: xs)) ++ ls) =
      (value (.arr [] :: stack)).run depth
        ((x.lexemes ++ .comma :: Json.itemLexemes (y :: xs)) ++ ls)
    rw [List.append_assoc]
    exact run_firstItem x _

/-- Where the first name of an object is due, a name is read as anywhere else. -/
theorem run_firstName (k : String) (v : Json) (ms : List (String × Json)) (ls : List Lexeme) :
    (firstName stack).run depth (Json.memberLexemes ((k, v) :: ms) ++ ls) =
      (name [] stack).run depth (Json.memberLexemes ((k, v) :: ms) ++ ls) := by
  cases ms <;> rfl

/-- A container is opened where there is room. -/
theorem run_open (h : Room depth (stack.length + 1)) :
    (value stack).run depth (.openArr :: ls) = (firstItem stack).run depth ls ∧
      (value stack).run depth (.openObj :: ls) = (firstName stack).run depth ls := by
  simp only [run, step, begin?, h.fits, if_true, Option.bind_some, and_self]

mutual

/-- **The lexemes of a value are taken as the value**, merged, where there is room for it. -/
theorem run_lexemes : ∀ (j : Json) (stack : List OpenContainer) (ls : List Lexeme),
    Room depth (stack.length + j.height) →
      (value stack).run depth (j.lexemes ++ ls) = (deliver j.merged stack).run depth ls
  | .null, _, _, _ | .bool _, _, _, _ | .num _, _, _, _ | .str _, _, _, _ => rfl
  | .arr [], stack, ls, h => (run_open h).1
  | .arr (x :: xs), stack, ls, h => by
    show (value stack).run depth (.openArr :: (Json.itemLexemes (x :: xs) ++ ls)) = _
    rw [Json.height] at h
    rw [(run_open (h.mono (by omega))).1, run_firstItems]
    exact run_itemLexemes (x :: xs) (by simp) [] stack ls h
  | .obj [], stack, ls, h => (run_open h).2
  | .obj ((k, v) :: ms), stack, ls, h => by
    show (value stack).run depth (.openObj :: (Json.memberLexemes ((k, v) :: ms) ++ ls)) = _
    rw [Json.height] at h
    rw [(run_open (h.mono (by omega))).2, run_firstName]
    exact run_memberLexemes ((k, v) :: ms) (by simp) [] stack ls h

theorem run_itemLexemes : ∀ xs : List Json, xs ≠ [] →
    ∀ (items : List Json) (stack : List OpenContainer) (ls : List Lexeme),
      Room depth (stack.length + (Json.heightOfItems xs + 1)) →
        (value (.arr items :: stack)).run depth (Json.itemLexemes xs ++ ls) =
          (deliver (.arr (items.reverse ++ Json.mergedItems xs)) stack).run depth ls
  | [], hne, _, _, _, _ => absurd rfl hne
  | [x], _, items, stack, ls, h => by
    rw [Json.heightOfItems] at h
    rw [Json.itemLexemes, List.append_assoc,
      run_lexemes x _ _ (h.mono (by rw [List.length_cons]; omega))]
    show (deliver (.arr (x.merged :: items).reverse) stack).run depth ls = _
    rw [List.reverse_cons]
    rfl
  | x :: y :: xs, _, items, stack, ls, h => by
    rw [Json.heightOfItems] at h
    have hrest := run_itemLexemes (y :: xs) (by simp) (x.merged :: items) stack ls
      (h.mono (by omega))
    show (value (.arr items :: stack)).run depth
      ((x.lexemes ++ .comma :: Json.itemLexemes (y :: xs)) ++ ls) = _
    rw [List.append_assoc, run_lexemes x _ _ (h.mono (by rw [List.length_cons]; omega))]
    rw [List.reverse_cons, List.append_assoc] at hrest
    exact hrest

theorem run_memberLexemes : ∀ ms : List (String × Json), ms ≠ [] →
    ∀ (members : List (String × Json)) (stack : List OpenContainer) (ls : List Lexeme),
      Room depth (stack.length + (Json.heightOfMembers ms + 1)) →
        (name members stack).run depth (Json.memberLexemes ms ++ ls) =
          (deliver (.obj ((Json.mergedMembers ms).foldl (fun acc m => Members.put m.1 m.2 acc)
            members)) stack).run depth ls
  | [], hne, _, _, _, _ => absurd rfl hne
  | [(k, v)], _, members, stack, ls, h => by
    rw [Json.heightOfMembers] at h
    have hv := run_lexemes v (.obj members k :: stack) ([.closeObj] ++ ls)
      (h.mono (by rw [List.length_cons]; omega))
    show (value (.obj members k :: stack)).run depth ((v.lexemes ++ [.closeObj]) ++ ls) = _
    rw [List.append_assoc, hv]
    rfl
  | (k, v) :: m :: ms, _, members, stack, ls, h => by
    rw [Json.heightOfMembers] at h
    have hv := run_lexemes v (.obj members k :: stack)
      (.comma :: Json.memberLexemes (m :: ms) ++ ls)
      (h.mono (by rw [List.length_cons]; omega))
    have hrest := run_memberLexemes (m :: ms) (by simp) (Members.put k v.merged members) stack ls
      (h.mono (by omega))
    show (value (.obj members k :: stack)).run depth
      ((v.lexemes ++ .comma :: Json.memberLexemes (m :: ms)) ++ ls) = _
    rw [List.append_assoc, hv]
    exact hrest

end

/-! ## Where there is no room -/

theorem run_open_none {d : Nat} (h : d ≤ stack.length) :
    (value stack).run (some d) (.openArr :: ls) = none ∧
      (value stack).run (some d) (.openObj :: ls) = none := by
  have hfits : fits (some d) stack.length = false := decide_eq_false (Nat.not_lt.2 h)
  simp only [run, step, begin?, hfits, Bool.false_eq_true, if_false, Option.bind_none, and_self]

mutual

/-- **The lexemes of a value are refused** where there is no room for it. -/
theorem run_lexemes_none {d : Nat} : ∀ (j : Json) (stack : List OpenContainer) (ls : List Lexeme),
    stack.length ≤ d → d < stack.length + j.height →
      (value stack).run (some d) (j.lexemes ++ ls) = none
  | .null, _, _, hs, h | .bool _, _, _, hs, h | .num _, _, _, hs, h | .str _, _, _, hs, h =>
    absurd h (Nat.not_lt.2 hs)
  | .arr [], stack, ls, hs, h => (run_open_none (Nat.le_of_lt_succ h)).1
  | .arr (x :: xs), stack, ls, hs, h => by
    show (value stack).run (some d) (.openArr :: (Json.itemLexemes (x :: xs) ++ ls)) = none
    rw [Json.height] at h
    rcases Nat.lt_or_ge stack.length d with hlt | hge
    · have hroom : Room (some d) (stack.length + 1) := by
        rintro _ ⟨⟩
        exact hlt
      rw [(run_open hroom).1, run_firstItems]
      exact run_itemLexemes_none (x :: xs) [] stack ls hlt h
    · exact (run_open_none hge).1
  | .obj [], stack, ls, hs, h => (run_open_none (Nat.le_of_lt_succ h)).2
  | .obj ((k, v) :: ms), stack, ls, hs, h => by
    show (value stack).run (some d) (.openObj :: (Json.memberLexemes ((k, v) :: ms) ++ ls)) = none
    rw [Json.height] at h
    rcases Nat.lt_or_ge stack.length d with hlt | hge
    · have hroom : Room (some d) (stack.length + 1) := by
        rintro _ ⟨⟩
        exact hlt
      rw [(run_open hroom).2, run_firstName]
      exact run_memberLexemes_none ((k, v) :: ms) [] stack ls hlt h
    · exact (run_open_none hge).2

theorem run_itemLexemes_none {d : Nat} : ∀ (xs items : List Json) (stack : List OpenContainer)
    (ls : List Lexeme), stack.length < d → d < stack.length + (Json.heightOfItems xs + 1) →
      (value (.arr items :: stack)).run (some d) (Json.itemLexemes xs ++ ls) = none
  | [], _, _, _, hs, h => by
    rw [Json.heightOfItems] at h
    omega
  | [x], items, stack, ls, hs, h => by
    rw [Json.heightOfItems, Json.heightOfItems] at h
    rw [Json.itemLexemes, List.append_assoc]
    exact run_lexemes_none x _ _ hs (by rw [List.length_cons]; omega)
  | x :: y :: xs, items, stack, ls, hs, h => by
    rw [Json.heightOfItems] at h
    show (value (.arr items :: stack)).run (some d)
      ((x.lexemes ++ .comma :: Json.itemLexemes (y :: xs)) ++ ls) = none
    rw [List.append_assoc]
    by_cases hx : d < stack.length + 1 + x.height
    · exact run_lexemes_none x _ _ hs hx
    · have hroom : Room (some d)
          ((.arr items :: stack : List OpenContainer).length + x.height) := by
        rintro _ ⟨⟩
        exact Nat.le_of_not_lt hx
      rw [run_lexemes x _ _ hroom]
      exact run_itemLexemes_none (y :: xs) (x.merged :: items) stack ls hs (by omega)

theorem run_memberLexemes_none {d : Nat} : ∀ (ms members : List (String × Json))
    (stack : List OpenContainer) (ls : List Lexeme), stack.length < d →
      d < stack.length + (Json.heightOfMembers ms + 1) →
        (name members stack).run (some d) (Json.memberLexemes ms ++ ls) = none
  | [], _, _, _, hs, h => by
    rw [Json.heightOfMembers] at h
    omega
  | [(k, v)], members, stack, ls, hs, h => by
    rw [Json.heightOfMembers, Json.heightOfMembers] at h
    show (value (.obj members k :: stack)).run (some d) ((v.lexemes ++ [.closeObj]) ++ ls) = none
    rw [List.append_assoc]
    exact run_lexemes_none v _ _ hs (by rw [List.length_cons]; omega)
  | (k, v) :: m :: ms, members, stack, ls, hs, h => by
    rw [Json.heightOfMembers] at h
    show (value (.obj members k :: stack)).run (some d)
      ((v.lexemes ++ .comma :: Json.memberLexemes (m :: ms)) ++ ls) = none
    rw [List.append_assoc]
    by_cases hv : d < stack.length + 1 + v.height
    · exact run_lexemes_none v _ _ hs hv
    · have hroom : Room (some d)
          ((.obj members k :: stack : List OpenContainer).length + v.height) := by
        rintro _ ⟨⟩
        exact Nat.le_of_not_lt hv
      rw [run_lexemes v _ _ hroom]
      exact run_memberLexemes_none (m :: ms) (Members.put k v.merged members) stack ls hs (by omega)

end

end Assembly

/-! ## Texts and bytes -/

namespace Json

/-- **The text of a value is read as the value**, with numbers as they are read and members
    merged, if it nests no deeper than it may. -/
theorem read?_text_eq {r : Reading} {f : Number → Number}
    (hf : ∀ n, Number.read? r.rounding n.print = some (f n)) {j : Json}
    (hj : Room r.depth j.height) : read? r j.text = some (j.renumber f).merged := by
  have hls : Scan.gap.lexemes r.rounding j.print = some (j.renumber f).lexemes := by
    have hend : Scan.Stops [] := by simp [Scan.Stops]
    simpa [Scan.lexemes] using Scan.lexemes_print hf hend j
  have hrun : (Assembly.value []).run r.depth (j.renumber f).lexemes =
      some (.done (j.renumber f).merged) := by
    have hroom : Room r.depth (0 + (j.renumber f).height) := by
      rwa [Nat.zero_add, height_renumber]
    have h := Assembly.run_lexemes (j.renumber f) [] [] hroom
    rwa [List.append_nil] at h
  rw [read?, readChars?, text, String.toList_ofList]
  simp only [hls, Option.bind_eq_bind, Option.bind_some, hrun, Assembly.result?]

/-- A well-formed value is what its text spells. -/
theorem read?_text {j : Json} (hj : j.Wellformed) : read? ⟨none, .nearest⟩ j.text = some j := by
  have h := @read?_text_eq ⟨none, .nearest⟩ id Number.read?_print j nofun
  rwa [renumber_id, merged_of_wellformed hj] at h

/-- The bytes of a text spell what the text spells. -/
theorem ofBytes?_toUTF8 (r : Reading) (s : String) : ofBytes? r s.toUTF8 = read? r s := by
  have hutf : String.fromUTF8? s.toUTF8 = some s := by
    rw [String.toUTF8_eq_toByteArray, String.fromUTF8?, dif_pos s.isValidUTF8]
    rfl
  rw [ofBytes?, hutf, Option.bind_some]

/-- **A well-formed value is read back from its bytes.** -/
theorem ofBytes?_toBytes {j : Json} (hj : j.Wellformed) :
    ofBytes? ⟨none, .nearest⟩ j.toBytes = some j := by
  rw [toBytes, ofBytes?_toUTF8, read?_text hj]

/-- The text of a value that nests deeper than it may is not read. -/
theorem read?_text_none {r : Reading} {j : Json} (hj : ¬Room r.depth j.height) :
    read? r j.text = none := by
  obtain ⟨depth, rounding⟩ := r
  obtain ⟨d, hd, hlt⟩ : ∃ d, depth = some d ∧ d < j.height := by
    simpa [Room] using hj
  choose f hf using Number.exists_read?_print rounding
  have hls : Scan.gap.lexemes rounding j.print = some (j.renumber f).lexemes := by
    have hend : Scan.Stops [] := by simp [Scan.Stops]
    simpa [Scan.lexemes] using Scan.lexemes_print hf hend j
  have hrun : (Assembly.value []).run depth (j.renumber f).lexemes = none := by
    have h := Assembly.run_lexemes_none (j.renumber f) [] [] (Nat.zero_le d)
      (by rwa [List.length_nil, Nat.zero_add, height_renumber])
    rwa [List.append_nil, ← hd] at h
  rw [read?, readChars?, text, String.toList_ofList]
  simp only [hls, Option.bind_eq_bind, Option.bind_some, hrun, Option.bind_none]

/-- **The bytes of a value are read as a value just if it nests no deeper than it may**,
    however numbers are rounded. -/
theorem exists_ofBytes?_iff {r : Reading} {j : Json} :
    (∃ k, ofBytes? r j.toBytes = some k) ↔ Room r.depth j.height := by
  rw [toBytes, ofBytes?_toUTF8]
  constructor
  · rintro ⟨k, hk⟩
    by_contra hj
    rw [read?_text_none hj] at hk
    cases hk
  · intro hj
    choose f hf using Number.exists_read?_print r.rounding
    exact ⟨_, read?_text_eq hf hj⟩

/-- No value has an empty text, for that is not read. -/
theorem isEmpty_toBytes (j : Json) : j.toBytes.isEmpty = false := by
  rw [← Bool.not_eq_true]
  intro he
  have hempty : j.toBytes = .empty := by
    simpa [ByteArray.isEmpty] using he
  obtain ⟨k, hk⟩ := (exists_ofBytes?_iff (r := ⟨none, .nearest⟩) (j := j)).2 nofun
  rw [hempty] at hk
  cases hk

end Json

end DocPointer
