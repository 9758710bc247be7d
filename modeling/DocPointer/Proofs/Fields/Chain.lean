/-
  Chains of embeddings, and the law of dominance over all of them.

  A `Chain` leads from a record to another by untagged embeddings; a record may be
  reached by many.  A `Candidate` is a visible field at the end of a chain, known by the
  positions that lead to it, so that a record reached by two chains has each of its
  fields twice.  Of the `Shallow` candidates of a name, those with the fewest positions,
  the law gives the name to the one that is alone or, if there are more, to the only
  tagged one (`Dominant`).

  `Twin` is what the breadth-first search does not tell apart: candidates for one declared
  field whose chains end with the same embedding in the same record.  Each record is
  reached by a first of its shortest chains, its `Best` one.
-/
import DocPointer.Fields.Index

namespace DocPointer

/-! ## Positions -/

section
variable {p q a b : List Nat}

theorem eq_of_not_lt (h : ¬p < q) (h' : ¬q < p) : p = q :=
  List.le_antisymm (List.not_lt.1 h') (List.not_lt.1 h)

theorem not_lt_trans (h : ¬b < a) (h' : ¬q < b) : ¬q < a :=
  List.not_lt.2 (List.le_trans (List.not_lt.1 h) (List.not_lt.1 h'))

/-- Paths of one length are compared first, and what follows them decides a tie. -/
theorem append_lt_append (h : p.length = q.length) :
    p ++ a < q ++ b ↔ p < q ∨ p = q ∧ a < b := by
  induction p generalizing q with
  | nil =>
    cases q with
    | nil => simp
    | cons => cases h
  | cons x p ih =>
    cases q with
    | nil => cases h
    | cons y q =>
      simp only [List.cons_append, List.cons_lt_cons_iff, ih (Nat.succ.inj h), List.cons.injEq]
      grind

end

/-! ## Chains -/

section
variable (F : Family)

/-- The record `p` embeds the record `s` at position `k`, and promotes its fields. -/
def Embeds (p : String) (k : Nat) (s : String) : Prop :=
  ∃ fs d, Members.get? p F = some fs ∧ fs[k]? = some d ∧ d.role = .promotes s

/-- The record `s` declares a visible field at position `i`. -/
def Declares (s : String) (i : Nat) (name : String) (tagged : Bool) : Prop :=
  ∃ fs d, Members.get? s F = some fs ∧ fs[i]? = some d ∧ d.role = .visible name tagged

/-- The embeddings at the given positions lead from the record `r` to another. -/
inductive Chain (r : String) : List Nat → String → Prop where
  | nil : Chain r [] r
  | snoc {path : List Nat} {p : String} {k : Nat} {s : String} :
      Chain r path p → Embeds F p k s → Chain r (path ++ [k]) s

/-- A visible field of `r` or of a record that a chain leads to. -/
def Candidate (r : String) (f : Field) : Prop :=
  ∃ path s i, Chain F r path s ∧ Declares F s i f.name f.tagged ∧ f.index = path ++ [i]

/-- A candidate with the fewest positions among those of its name. -/
def Shallow (r : String) (f : Field) : Prop :=
  Candidate F r f ∧ ∀ g, Candidate F r g → g.name = f.name → f.index.length ≤ g.index.length

/-- The candidate to which the law gives a name. -/
def Dominant (r : String) (f : Field) : Prop :=
  Shallow F r f ∧
    ((∀ g, Shallow F r g → g.name = f.name → g = f) ∨
      f.tagged = true ∧ ∀ g, Shallow F r g → g.name = f.name → g.tagged = true → g = f)

/-- Candidates that differ at most in how the record is reached that embeds the record of
    their field. -/
def Twin (r : String) (f g : Field) : Prop :=
  f.index = g.index ∨ ∃ p path path' k i, Chain F r path p ∧ Chain F r path' p ∧
    f.index = path ++ [k, i] ∧ g.index = path' ++ [k, i]

/-- The first of the shortest chains to a record. -/
def Best (r : String) (path : List Nat) (s : String) : Prop :=
  Chain F r path s ∧ ∀ path', Chain F r path' s →
    path.length ≤ path'.length ∧ (path'.length = path.length → ¬path' < path)

end

variable {F : Family} {r : String}

theorem Embeds.unique {p s s' : String} {k : Nat} (h : Embeds F p k s) (h' : Embeds F p k s') :
    s = s' := by
  obtain ⟨fs, d, hp, hd, hr⟩ := h
  obtain ⟨fs', d', hp', hd', hr'⟩ := h'
  rw [hp, Option.some.injEq] at hp'
  subst hp'
  rw [hd, Option.some.injEq] at hd'
  subst hd'
  rw [hr, Role.promotes.injEq] at hr'
  exact hr'

theorem Declares.unique {s name name' : String} {i : Nat} {tagged tagged' : Bool}
    (h : Declares F s i name tagged) (h' : Declares F s i name' tagged') :
    name = name' ∧ tagged = tagged' := by
  obtain ⟨fs, d, hp, hd, hr⟩ := h
  obtain ⟨fs', d', hp', hd', hr'⟩ := h'
  rw [hp, Option.some.injEq] at hp'
  subst hp'
  rw [hd, Option.some.injEq] at hd'
  subst hd'
  rw [hr, Role.visible.injEq] at hr'
  exact hr'

/-- What leads to a record, by its last step. -/
theorem Chain.cases_last {path : List Nat} {s : String} (h : Chain F r path s) :
    (path = [] ∧ s = r) ∨ ∃ q p k, Chain F r q p ∧ Embeds F p k s ∧ path = q ++ [k] := by
  cases h with
  | nil => exact .inl ⟨rfl, rfl⟩
  | snoc hq he => exact .inr ⟨_, _, _, hq, he, rfl⟩

theorem Chain.unique {path : List Nat} {s s' : String} (h : Chain F r path s)
    (h' : Chain F r path s') : s = s' := by
  induction h generalizing s' with
  | nil =>
    rcases h'.cases_last with ⟨-, rfl⟩ | ⟨q, p, k, -, -, hq⟩
    · rfl
    · simp at hq
  | @snoc q p k s hq he ih =>
    rcases h'.cases_last with ⟨hnil, -⟩ | ⟨q', p', k', hq', he', hpath⟩
    · simp at hnil
    · obtain ⟨rfl, hk⟩ := List.append_inj' hpath rfl
      cases hk
      rw [ih hq'] at he
      exact he.unique he'

theorem Best.unique {path path' : List Nat} {s : String} (h : Best F r path s)
    (h' : Best F r path' s) : path = path' := by
  have hle := h.2 _ h'.1
  have hle' := h'.2 _ h.1
  have hlen : path.length = path'.length := Nat.le_antisymm hle.1 hle'.1
  exact eq_of_not_lt (hle'.2 hlen) (hle.2 hlen.symm)

/-! ## Candidates -/

/-- A candidate is known by its positions. -/
theorem Candidate.ext {f g : Field} (hf : Candidate F r f) (hg : Candidate F r g)
    (h : f.index = g.index) : f = g := by
  obtain ⟨path, s, i, hc, hd, hi⟩ := hf
  obtain ⟨path', s', i', hc', hd', hi'⟩ := hg
  rw [hi, hi'] at h
  obtain ⟨rfl, hii⟩ := List.append_inj' h rfl
  cases hii
  rw [hc'.unique hc] at hd'
  obtain ⟨hn, ht⟩ := hd.unique hd'
  obtain ⟨name, tagged, index⟩ := f
  obtain ⟨name', tagged', index'⟩ := g
  simp_all

/-- The chain of a shallow candidate is a shortest one. -/
theorem Shallow.le_of_chain {f : Field} {path path' : List Nat} {s : String} {i : Nat}
    (hf : Shallow F r f) (hd : Declares F s i f.name f.tagged) (hi : f.index = path ++ [i])
    (hc : Chain F r path' s) : path.length ≤ path'.length := by
  have h := hf.2 ⟨f.name, f.tagged, path' ++ [i]⟩ ⟨path', s, i, hc, hd, rfl⟩ rfl
  simpa [hi] using h

/-- A candidate as deep as a shallow one of its name is shallow. -/
theorem Shallow.of_length {f g : Field} (hf : Shallow F r f) (hg : Candidate F r g)
    (hn : g.name = f.name) (hl : g.index.length = f.index.length) : Shallow F r g :=
  ⟨hg, fun k hk hkn => hl ▸ hf.2 k hk (hkn.trans hn)⟩

end DocPointer
