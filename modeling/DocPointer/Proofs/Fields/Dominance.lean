/-
  Which fields an index lists.

  The law gives a name to the candidate that is alone at the least depth, or to the only
  tagged one there (`Dominant`).  The index is made from one chain to each record, and a
  second chain counts only if it ends with another embedding.  So it lists a candidate if
  all its rivals are its twins, and of these the first (`Listed`, `mem_build_iff`); a
  candidate without twins is listed by the law alone (`listed_iff_dominant`).  A record
  embedded twice, that embeds another, gives the fields of the latter twins, and the
  index lists names that the law leaves to nobody.
-/
import DocPointer.Proofs.Fields.Levels

namespace DocPointer

/-- The candidate to which the index gives a name: all its rivals are its twins, and it
    comes first among these. -/
def Listed (F : Family) (r : String) (f : Field) : Prop :=
  Shallow F r f ∧
    ((∀ g, Shallow F r g → g.name = f.name → Twin F r f g) ∨
      f.tagged = true ∧ ∀ g, Shallow F r g → g.name = f.name → g.tagged = true → Twin F r f g) ∧
    ∀ g, Shallow F r g → Twin F r f g → ¬g.index < f.index

variable {F : Family} {r : String}

/-! ## Lists of fields -/

theorem only?_eq_some {α : Type} {l : List α} {a : α} : only? l = some a ↔ l = [a] := by
  match l with
  | [] => simp [only?]
  | [b] => simp [only?]
  | b :: c :: l => simp [only?]

theorem mem_shallowest {fs : List Field} {f : Field} :
    f ∈ shallowest fs ↔ f ∈ fs ∧ ∀ g ∈ fs, f.index.length ≤ g.index.length := by
  rw [shallowest]
  split
  · next h =>
    have : fs = [] := by simpa using h
    simp [this]
  · next depth h =>
    obtain ⟨hmem, hle⟩ := List.min?_eq_some_iff.1 h
    obtain ⟨g, hg, rfl⟩ := List.mem_map.1 hmem
    simp only [List.mem_filter, decide_eq_true_eq]
    refine and_congr_right fun hf => ⟨?_, ?_⟩
    · intro hfg k hk
      exact hfg ▸ hle _ (List.mem_map_of_mem hk)
    · intro hfk
      exact Nat.le_antisymm (hfk g hg) (hle _ (List.mem_map_of_mem hf))

theorem shallowest_sublist (fs : List Field) : (shallowest fs).Sublist fs := by
  rw [shallowest]
  split
  · exact List.nil_sublist fs
  · exact List.filter_sublist

/-- A shallowest field that occurs twice occurs twice among the shallowest. -/
theorem sublist_shallowest {fs : List Field} {f : Field} (hf : f ∈ shallowest fs)
    (h : [f, f].Sublist fs) : [f, f].Sublist (shallowest fs) := by
  rw [shallowest] at hf ⊢
  split at hf
  · cases hf
  · next depth _ =>
    have hd := (List.mem_filter.1 hf).2
    simpa [hd] using h.filter (·.index.length = depth)

theorem insertByIndex_perm (f : Field) (fs : List Field) : (insertByIndex f fs).Perm (f :: fs) := by
  induction fs with
  | nil => exact .refl _
  | cons g fs ih =>
    rw [insertByIndex]
    split
    · exact (ih.cons g).trans (.swap f g fs)
    · exact .refl _

theorem sortByIndex_perm (fs : List Field) : (sortByIndex fs).Perm fs := by
  induction fs with
  | nil => exact .refl _
  | cons f fs ih => exact (insertByIndex_perm f _).trans (ih.cons f)

theorem nodup_eraseDups : ∀ names : List String, names.eraseDups.Nodup
  | [] => by simp
  | name :: names => by
    rw [List.eraseDups_cons, List.nodup_cons]
    exact ⟨by simp [List.mem_eraseDups], nodup_eraseDups _⟩
termination_by names => names.length
decreasing_by exact Nat.lt_succ_of_le (List.length_filter_le _ _)

/-! ## Candidates found -/

/-- All that the flattening of a record finds. -/
def foundFields (F : Family) (r : String) : List Field := (Flattening.ofLevel F [(r, [])]).fields

section
variable (hF : (Members.names F).Nodup)
include hF

theorem exists_isLevel (r : String) (n : Nat) : ∃ pool level, IsLevel F r n pool level := by
  induction n with
  | zero => exact ⟨F, [(r, [])], .zero hF⟩
  | succ n ih =>
    obtain ⟨pool, level, h⟩ := ih
    exact ⟨_, _, h.below (copiesOn level)⟩

/-- Every record that a chain leads to has a best chain. -/
theorem exists_best {path : List Nat} {s : String} (hc : Chain F r path s) :
    ∃ q, Best F r q s := by
  obtain ⟨pool, level, h⟩ := exists_isLevel hF r (path.length + 1)
  exact h.best s path hc (Nat.lt_succ_self _)

theorem mem_foundFields {f : Field} : f ∈ foundFields F r ↔
    ∃ s path i, Best F r path s ∧ Declares F s i f.name f.tagged ∧ f.index = path ++ [i] := by
  rw [foundFields, mem_fields_iff (.zero hF)]
  simp

/-- No candidate is above those that are found. -/
theorem exists_found_le {f : Field} (hf : Candidate F r f) :
    ∃ g ∈ foundFields F r, g.name = f.name ∧ g.tagged = f.tagged ∧
      g.index.length ≤ f.index.length := by
  obtain ⟨path, s, i, hc, hd, hi⟩ := hf
  obtain ⟨q, hq⟩ := exists_best hF hc
  refine ⟨⟨f.name, f.tagged, q ++ [i]⟩, (mem_foundFields hF).2 ⟨s, q, i, hq, hd, rfl⟩, rfl, rfl, ?_⟩
  simpa [hi] using (hq.2 path hc).1

theorem candidate_of_found {f : Field} (hf : f ∈ foundFields F r) : Candidate F r f := by
  obtain ⟨s, path, i, hb, hd, hi⟩ := (mem_foundFields hF).1 hf
  exact ⟨path, s, i, hb.1, hd, hi⟩

/-- The shallowest fields found under a name are its shallow candidates. -/
theorem mem_shallowest_found {name : String} {f : Field} :
    f ∈ shallowest ((foundFields F r).filter (·.name = name)) ↔
      f ∈ foundFields F r ∧ f.name = name ∧ Shallow F r f := by
  simp only [mem_shallowest, List.mem_filter, decide_eq_true_eq]
  constructor
  · rintro ⟨⟨hf, rfl⟩, hmin⟩
    refine ⟨hf, rfl, candidate_of_found hF hf, ?_⟩
    intro g hg hn
    obtain ⟨k, hk, hkn, -, hle⟩ := exists_found_le hF hg
    exact Nat.le_trans (hmin k ⟨hk, hkn.trans hn⟩) hle
  · rintro ⟨hf, rfl, hs⟩
    exact ⟨⟨hf, rfl⟩, fun g ⟨hg, hn⟩ => hs.2 g (candidate_of_found hF hg) hn⟩

/-- A field is alone in a part of what is found if it is the only one there and not
    doubled. -/
theorem only?_found {l : List Field} {f : Field} (hl : l.Sublist (foundFields F r))
    (hd : f ∈ l → Doubled F r f → [f, f].Sublist l) :
    only? l = some f ↔ f ∈ l ∧ (∀ g ∈ l, g = f) ∧ ¬Doubled F r f := by
  rw [only?_eq_some]
  constructor
  · rintro rfl
    refine ⟨List.mem_singleton.2 rfl, fun g => List.mem_singleton.1, ?_⟩
    intro h
    have := (hd (List.mem_singleton.2 rfl) h).length_le
    simp at this
  · rintro ⟨hf, hall, hn⟩
    have hp := (pairwise_fields (.zero hF) : (foundFields F r).Pairwise _).sublist hl
    match l, hf with
    | [g], _ => rw [hall g List.mem_cons_self]
    | g :: k :: l, _ =>
      have hg := hall g List.mem_cons_self
      have hk := hall k (List.mem_cons_of_mem _ List.mem_cons_self)
      have hgk := (List.pairwise_cons.1 hp).1 k List.mem_cons_self
      exact absurd (hg ▸ hgk (hg.trans hk.symm)) hn

/-- The field at the end of the best chain to the record of a shallow candidate. -/
theorem exists_best_shallow {f : Field} (hf : Shallow F r f) {path : List Nat} {s : String} {i : Nat}
    (hc : Chain F r path s) (hd : Declares F s i f.name f.tagged) (hi : f.index = path ++ [i]) :
    ∃ q, Best F r q s ∧ q.length = path.length ∧ Shallow F r ⟨f.name, f.tagged, q ++ [i]⟩ := by
  obtain ⟨q, hq⟩ := exists_best hF hc
  have hl : q.length = path.length :=
    Nat.le_antisymm (hq.2 path hc).1 (hf.le_of_chain hd hi hq.1)
  refine ⟨q, hq, hl, hf.of_length ⟨q, s, i, hq.1, hd, rfl⟩ rfl ?_⟩
  simp [hi, hl]

end

/-! ## Twins -/

/-- A twin belongs to the same record, at the same position. -/
theorem Twin.exists_chain {f g : Field} (h : Twin F r f g) {path : List Nat} {s : String} {i : Nat}
    (hc : Chain F r path s) (hi : f.index = path ++ [i]) :
    ∃ path', Chain F r path' s ∧ g.index = path' ++ [i] := by
  rcases h with h | ⟨p, a, b, k, j, ha, hb, hf, hg⟩
  · exact ⟨path, hc, h ▸ hi⟩
  · have hpath : path ++ [i] = (a ++ [k]) ++ [j] := by simp [← hi, hf]
    obtain ⟨rfl, hij⟩ := List.append_inj' hpath rfl
    cases hij
    rcases hc.cases_last with ⟨hnil, -⟩ | ⟨a', p', k', ha', he, hak⟩
    · simp at hnil
    · obtain ⟨rfl, hk⟩ := List.append_inj' hak rfl
      cases hk
      rw [ha'.unique ha] at he
      exact ⟨b ++ [k], hb.snoc he, by simp [hg]⟩

/-- Twins are under one name, and either both or none of them are tagged. -/
theorem Twin.same_name {f g : Field} (h : Twin F r f g) (hf : Candidate F r f)
    (hg : Candidate F r g) : g.name = f.name ∧ g.tagged = f.tagged := by
  obtain ⟨path, s, i, hc, hd, hi⟩ := hf
  obtain ⟨path', s', i', hc', hd', hi'⟩ := hg
  obtain ⟨path'', hc'', hi''⟩ := h.exists_chain hc hi
  obtain ⟨rfl, hij⟩ := List.append_inj' (hi'.symm.trans hi'') rfl
  cases hij
  rw [hc'.unique hc''] at hd'
  exact hd'.unique hd

/-- A field at the end of a best chain comes before its twins. -/
theorem Best.not_lt_twin {f g : Field} (hf : Shallow F r f) (hg : Shallow F r g) (h : Twin F r f g)
    {path : List Nat} {s : String} {i : Nat} (hb : Best F r path s) (hi : f.index = path ++ [i]) :
    ¬g.index < f.index := by
  obtain ⟨path', hc', hi'⟩ := h.exists_chain hb.1 hi
  have hn := (h.same_name hf.1 hg.1).1
  have hl : f.index.length = g.index.length :=
    Nat.le_antisymm (hf.2 g hg.1 hn) (hg.2 f hf.1 hn.symm)
  rw [hi, hi', List.length_append, List.length_append] at hl
  have hl' : path'.length = path.length := (Nat.add_right_cancel hl).symm
  rw [hi, hi', append_lt_append hl']
  rintro (hlt | ⟨-, hlt⟩)
  · exact (hb.2 path' hc').2 hl' hlt
  · exact absurd hlt (List.lt_irrefl _)

/-- Twins at the ends of chains that the flattening follows are the same field. -/
theorem Twin.eq_of_entry {f g : Field} (h : Twin F r f g) {path path' : List Nat} {s : String}
    {i : Nat} (hf : Entry F r path s) (hg : Entry F r path' s) (hi : f.index = path ++ [i])
    (hi' : g.index = path' ++ [i]) : path' = path := by
  rcases h with h | ⟨p, a, b, k, j, ha, hb, hfi, hgi⟩
  · exact (List.append_inj' (hi'.symm.trans (h.symm.trans hi)) rfl).1
  · have before {x y : List Nat} (hx : Entry F r y s) (hc : Chain F r x p) (hy : y = x ++ [k]) :
        Best F r x p := by
      rcases hx with ⟨rfl, -⟩ | ⟨q, p', k', hq, -, hqk⟩
      · simp at hy
      · obtain ⟨rfl, -⟩ := List.append_inj' (hqk.symm.trans hy) rfl
        rwa [hq.1.unique hc] at hq
    have hpath : path = a ++ [k] :=
      (List.append_inj' (hi.symm.trans (hfi.trans (by simp : _ = (a ++ [k]) ++ [j]))) rfl).1
    have hpath' : path' = b ++ [k] :=
      (List.append_inj' (hi'.symm.trans (hgi.trans (by simp : _ = (b ++ [k]) ++ [j]))) rfl).1
    rw [hpath, hpath', (before hf ha hpath).unique (before hg hb hpath')]

section
variable (hF : (Members.names F).Nodup)
include hF

/-- A found field that is alone has only twins for rivals, if the rivals are those that
    `need` admits: all candidates, or the tagged ones. -/
theorem twin_of_alone {f : Field} {need : Bool → Bool} (hf : f ∈ foundFields F r)
    (hall : ∀ g ∈ foundFields F r, g.name = f.name → Shallow F r g → need g.tagged → g = f)
    (hn : ¬Doubled F r f) {g : Field} (hg : Shallow F r g) (hgn : g.name = f.name) (hgt : need g.tagged) :
    Twin F r f g := by
  obtain ⟨s, path, i, hb, hd, hi⟩ := (mem_foundFields hF).1 hf
  obtain ⟨pathg, sg, ig, hcg, hdg, hig⟩ := hg.1
  obtain ⟨q, hq, hql, hqs⟩ := exists_best_shallow hF hg hcg hdg hig
  have hqf := hall ⟨g.name, g.tagged, q ++ [ig]⟩ ((mem_foundFields hF).2 ⟨sg, q, ig, hq, hdg, rfl⟩)
    hgn hqs hgt
  have hqi : q ++ [ig] = path ++ [i] := (congrArg Field.index hqf).trans hi
  obtain ⟨rfl, hii⟩ := List.append_inj' hqi rfl
  cases hii
  obtain rfl := hq.1.unique hb.1
  -- The chain of `g` ends with an embedding that the flattening follows: that of `f`.
  rcases hcg.cases_last with ⟨rfl, -⟩ | ⟨a, p, k, ha, he, rfl⟩
  · rw [List.length_nil, List.length_eq_zero_iff] at hql
    exact .inl (by rw [hi, hig, hql])
  · obtain ⟨b, hbp⟩ := exists_best hF ha
    have hle := (hq.2 _ (hbp.1.snoc he)).1
    have hle' := (hbp.2 a ha).1
    simp only [List.length_append, List.length_singleton] at hle hql
    have hbq : b ++ [k] = q := Decidable.of_not_not fun hne =>
      hn ⟨sg, q, b ++ [k], i, hq, .inr ⟨b, p, k, hbp, he, rfl⟩,
        by simp only [List.length_append, List.length_singleton]; omega, hne, hi⟩
    exact .inr ⟨p, b, a, k, i, hbp.1, ha, by simp [hi, ← hbq], by simp [hig]⟩

/-- A shallow candidate that comes first among its twins, and whose rivals are all its
    twins, is found, and alone. -/
theorem alone_of_twin {f : Field} {need : Bool → Bool} (hf : Shallow F r f)
    (hft : need f.tagged)
    (htwin : ∀ g, Shallow F r g → g.name = f.name → need g.tagged → Twin F r f g)
    (hfirst : ∀ g, Shallow F r g → Twin F r f g → ¬g.index < f.index) :
    f ∈ foundFields F r ∧
      (∀ g ∈ foundFields F r, g.name = f.name → Shallow F r g → need g.tagged → g = f) ∧
        ¬Doubled F r f := by
  obtain ⟨path, s, i, hc, hd, hi⟩ := hf.1
  obtain ⟨q, hq, hql, hqs⟩ := exists_best_shallow hF hf hc hd hi
  have hle := hfirst _ hqs (htwin _ hqs rfl hft)
  have hb : Best F r path s := by
    rw [hi, append_lt_append hql] at hle
    rwa [eq_of_not_lt ((hq.2 path hc).2 hql.symm) fun h => hle (.inl h)]
  refine ⟨(mem_foundFields hF).2 ⟨s, path, i, hb, hd, hi⟩, ?_, ?_⟩
  · intro g hg hgn hgs hgt
    obtain ⟨sg, pathg, ig, hbg, hdg, hig⟩ := (mem_foundFields hF).1 hg
    obtain ⟨path', hc', hi'⟩ := (htwin g hgs hgn hgt).exists_chain hc hi
    obtain ⟨rfl, hii⟩ := List.append_inj' (hig.symm.trans hi') rfl
    cases hii
    obtain rfl := hbg.1.unique hc'
    exact hgs.1.ext hf.1 (by rw [hig, hi, hbg.unique hb])
  · rintro ⟨s', path', other, i', hb', hentry, hlen, hne, hi'⟩
    obtain ⟨rfl, hii⟩ := List.append_inj' (hi.symm.trans hi') rfl
    cases hii
    obtain rfl := hb'.1.unique hc
    have hg : Shallow F r ⟨f.name, f.tagged, other ++ [i]⟩ :=
      hf.of_length ⟨other, s', i, hentry.chain, hd, rfl⟩ rfl (by simp [hi, hlen])
    exact hne ((htwin _ hg rfl hft).eq_of_entry hb.entry hentry hi rfl)

/-- The field that is alone among the shallowest of those found under a name. -/
theorem only?_shallowest_found (need : Bool → Bool) (name : String) {f : Field} :
    only? ((shallowest ((foundFields F r).filter (·.name = name))).filter (need ·.tagged)) = some f ↔
      f.name = name ∧ Shallow F r f ∧ need f.tagged ∧
        (∀ g, Shallow F r g → g.name = f.name → need g.tagged → Twin F r f g) ∧
        ∀ g, Shallow F r g → Twin F r f g → ¬g.index < f.index := by
  have hsub := (List.filter_sublist (p := fun g => need g.tagged)).trans
    ((shallowest_sublist _).trans (List.filter_sublist (l := foundFields F r) (p := (·.name = name))))
  rw [only?_found hF hsub fun hf hd => ?_]
  · simp only [List.mem_filter, mem_shallowest_found hF]
    constructor
    · rintro ⟨⟨⟨hf, rfl, hs⟩, ht⟩, hall, hn⟩
      have hall' (g : Field) (hg : g ∈ foundFields F r) (hgn : g.name = f.name)
          (hgs : Shallow F r g) (hgt : need g.tagged) : g = f := hall g ⟨⟨hg, hgn, hgs⟩, hgt⟩
      obtain ⟨s, path, i, hb, -, hi⟩ := (mem_foundFields hF).1 hf
      exact ⟨rfl, hs, ht, fun g => twin_of_alone hF hf hall' hn,
        fun g hg htw => hb.not_lt_twin hs hg htw hi⟩
    · rintro ⟨rfl, hs, ht, htwin, hfirst⟩
      obtain ⟨hf, hall, hn⟩ := alone_of_twin hF hs ht htwin hfirst
      exact ⟨⟨⟨hf, rfl, hs⟩, ht⟩, fun g ⟨⟨hg, hgn, hgs⟩, hgt⟩ => hall g hg hgn hgs hgt, hn⟩
  · obtain ⟨hf, ht⟩ := List.mem_filter.1 hf
    have hname : f.name = name := ((mem_shallowest_found hF).1 hf).2.1
    have htwice : [f, f].Sublist (foundFields F r) :=
      sublist_fields (.zero hF) ((mem_shallowest_found hF).1 hf).1 hd
    have hnamed := htwice.filter (·.name = name)
    rw [List.filter_eq_self.2 (by simp [hname])] at hnamed
    simpa [ht] using (sublist_shallowest hf hnamed).filter (need ·.tagged)

end

theorem dominant_eq_some {fs : List Field} {f : Field} : dominant fs = some f ↔
    only? (shallowest fs) = some f ∨ only? ((shallowest fs).filter (·.tagged)) = some f := by
  rw [dominant]
  split
  · next g hg =>
    refine ⟨fun h => .inl (hg.trans h), ?_⟩
    intro h
    rcases h with h | h
    · exact hg.symm.trans h
    · rw [only?_eq_some.1 hg, only?_eq_some] at h
      have : f ∈ [g].filter (·.tagged) := h ▸ List.mem_singleton_self f
      rw [List.mem_singleton.1 (List.mem_filter.1 this).1]
  · next hg => simp [hg]

theorem mem_of_dominant {fs : List Field} {f : Field} (h : dominant fs = some f) : f ∈ fs := by
  have hf : f ∈ shallowest fs := by
    rcases dominant_eq_some.1 h with h | h
    · simp [only?_eq_some.1 h]
    · exact (List.mem_filter.1 (only?_eq_some.1 h ▸ List.mem_singleton_self f)).1
  exact (mem_shallowest.1 hf).1

/-- An index has at most one field for each name. -/
theorem nodup_build (F : Family) (r : String) :
    ((FieldIndex.build F r).fields.map (·.name)).Nodup := by
  rw [FieldIndex.build, FieldIndex.ofFlattening, ((sortByIndex_perm _).map _).nodup_iff, List.Nodup,
    List.pairwise_map, List.pairwise_filterMap]
  refine (nodup_eraseDups _).imp fun hne f hf g hg hfg => hne ?_
  have hfn := (List.mem_filter.1 (mem_of_dominant hf)).2
  have hgn := (List.mem_filter.1 (mem_of_dominant hg)).2
  simp only [decide_eq_true_eq] at hfn hgn
  rw [← hfn, ← hgn, hfg]

/-- The index of a record lists a candidate just if it is the first of its twins, and
    all its rivals are among these. -/
theorem mem_build_iff (hF : (Members.names F).Nodup) (r : String) (f : Field) :
    f ∈ (FieldIndex.build F r).fields ↔ Listed F r f := by
  have hdom (name : String) : dominant ((foundFields F r).filter (·.name = name)) = some f ↔
      f.name = name ∧ Listed F r f := by
    have hall := only?_shallowest_found hF (r := r) (fun _ => true) name (f := f)
    have htag := only?_shallowest_found hF (r := r) id name (f := f)
    simp only [id_eq, true_and, forall_const] at hall htag
    rw [List.filter_eq_self.2 fun _ _ => rfl] at hall
    rw [dominant_eq_some, hall, htag, Listed]
    grind
  simp only [FieldIndex.build, FieldIndex.ofFlattening, (sortByIndex_perm _).mem_iff,
    List.mem_filterMap,
    List.mem_eraseDups, List.mem_map]
  constructor
  · rintro ⟨name, -, h⟩
    exact ((hdom name).1 h).2
  · intro h
    obtain ⟨g, hg, hgn, -⟩ := exists_found_le hF h.1.1
    exact ⟨f.name, ⟨g, hg, hgn⟩, (hdom f.name).2 ⟨rfl, h⟩⟩

/-- Without twins, the index lists what the law gives a name to. -/
theorem listed_iff_dominant {f : Field}
    (h : ∀ g, Shallow F r g → Twin F r f g → g = f) : Listed F r f ↔ Dominant F r f := by
  have htw (g : Field) (hg : Shallow F r g) : Twin F r f g ↔ g = f :=
    ⟨h g hg, fun e => .inl (congrArg Field.index e).symm⟩
  constructor
  · rintro ⟨hs, halone, -⟩
    exact ⟨hs, halone.imp (fun ha g hg hn => h g hg (ha g hg hn))
      (And.imp_right fun ha g hg hn ht => h g hg (ha g hg hn ht))⟩
  · rintro ⟨hs, halone⟩
    refine ⟨hs, halone.imp (fun ha g hg hn => (htw g hg).2 (ha g hg hn))
      (And.imp_right fun ha g hg hn ht => (htw g hg).2 (ha g hg hn ht)), ?_⟩
    intro g hg ht
    rw [h g hg ht]
    exact List.lt_irrefl _

/-- What the law gives a name to has no twins. -/
theorem Dominant.eq_of_twin {f g : Field} (h : Dominant F r f) (hg : Shallow F r g)
    (ht : Twin F r f g) : g = f := by
  obtain ⟨hn, htag⟩ := ht.same_name h.1.1 hg.1
  rcases h.2 with hall | ⟨hf, hall⟩
  · exact hall g hg hn
  · exact hall g hg hn (htag.trans hf)

theorem Dominant.listed {f : Field} (h : Dominant F r f) : Listed F r f :=
  (listed_iff_dominant fun _ => h.eq_of_twin).2 h

/-! ## A record embedded twice -/

/-- The outer record embeds the middle one twice, and the inner one below that. -/
def forked : Family :=
  [("Outer", [⟨"Left", none, true, some "Middle"⟩, ⟨"Right", none, true, some "Middle"⟩]),
    ("Middle", [⟨"Inner", none, true, some "Inner"⟩]), ("Inner", [⟨"x", none, true, none⟩])]

/-- The field of the inner record is listed, although the law gives no name at all: two
    chains of the same length lead to it. -/
theorem forked_not_dominant : (FieldIndex.build forked "Outer").fields = [⟨"x", false, [0, 0, 0]⟩] ∧
    ∀ f, ¬Dominant forked "Outer" f := by
  have hfields : (FieldIndex.build forked "Outer").fields = [⟨"x", false, [0, 0, 0]⟩] := by
    decide +kernel
  refine ⟨hfields, ?_⟩
  intro f hf
  have hmem := (mem_build_iff (by decide) "Outer" f).2 hf.listed
  obtain rfl := List.mem_singleton.1 (hfields ▸ hmem)
  have embeds (i : Nat) (h : i < 2) : Embeds forked "Outer" i "Middle" := by
    match i, h with
    | 0, _ => exact ⟨_, _, rfl, rfl, rfl⟩
    | 1, _ => exact ⟨_, _, rfl, rfl, rfl⟩
  have chain (i : Nat) (h : i < 2) : Chain forked "Outer" [i] "Middle" := Chain.nil.snoc (embeds i h)
  have hinner : Embeds forked "Middle" 0 "Inner" := ⟨_, _, rfl, rfl, rfl⟩
  have hright : Candidate forked "Outer" ⟨"x", false, [1, 0, 0]⟩ :=
    ⟨[1, 0], "Inner", 0, (chain 1 (by omega)).snoc hinner, ⟨_, _, rfl, rfl, rfl⟩, rfl⟩
  have htwin : Twin forked "Outer" ⟨"x", false, [0, 0, 0]⟩ ⟨"x", false, [1, 0, 0]⟩ :=
    .inr ⟨"Middle", [0], [1], 0, 0, chain 0 (by omega), chain 1 (by omega), rfl, rfl⟩
  exact absurd (hf.eq_of_twin (hf.1.of_length hright rfl rfl) htwin) (by decide)

/-- The index lists the first twin of each name that twins have for themselves.  This is
    the law of dominance just for the records in which no such field has a twin. -/
theorem build_lists (hF : (Members.names F).Nodup) (r : String) :
    ((FieldIndex.build F r).fields.map (·.name)).Nodup ∧
      (∀ f, f ∈ (FieldIndex.build F r).fields ↔ Listed F r f) ∧
      ((∀ f, f ∈ (FieldIndex.build F r).fields ↔ Dominant F r f) ↔
        ∀ f g, Listed F r f → Shallow F r g → Twin F r f g → g = f) := by
  have hmem := mem_build_iff hF r
  refine ⟨nodup_build F r, hmem, ?_, ?_⟩
  · intro hlaw f g hf hg ht
    exact ((hlaw f).1 ((hmem f).2 hf)).eq_of_twin hg ht
  · intro h f
    refine (hmem f).trans ⟨fun hf => (listed_iff_dominant (h f · hf)).1 hf, Dominant.listed⟩

theorem build_lists_forked : (Members.names forked).Nodup ∧
    Listed forked "Outer" ⟨"x", false, [0, 0, 0]⟩ := by
  have hF : (Members.names forked).Nodup := by decide
  exact ⟨hF, ((build_lists hF "Outer").2.1 _).1 (by decide +kernel)⟩

end DocPointer
