/-
  The field index of a record: its fields after promotion.

  Embedded records are flattened breadth first, so that shallow fields are met
  before promoted ones.  Every record is expanded once, at the shallowest level
  it occurs on; on a level where it occurs more than once, each of its fields counts
  twice, so that none of them can win.

  * `Flattening.ofLevel` is the loop over the levels.  The pool holds the records
    that have not been expanded: a level that promotes anything takes a record out
    of it (`Expansion.pool_lt`), so the loop ends.
  * `dominant` is the field that wins among those of one name: the one that is
    shallowest, or the only tagged one of the shallowest.
  * `FieldIndex.build` lists the winners by position; `lookup` finds a name exactly,
    else up to case, else says whether it is out of bounds or missing.
-/
import DocPointer.Fields.Basic
import DocPointer.Text.Lower

namespace DocPointer

/-- A visible field: its name, whether a tag gave it, and the positions that lead
    to it from the outer record down. -/
structure Field where
  name : String
  tagged : Bool
  index : List Nat
  deriving DecidableEq, Repr, Inhabited

/-! ## Flattening -/

/-- A record that a level of the flattening expands, with the positions that lead to
    it. -/
abbrev Promotion := String × List Nat

/-- What flattening finds: visible fields, and identifiers out of bounds. -/
structure Flattening where
  fields : List Field
  unexported : List String

namespace Flattening

/-- Nothing found. -/
def empty : Flattening := ⟨[], []⟩

/-- One finding after the other. -/
def append (a b : Flattening) : Flattening :=
  ⟨a.fields ++ b.fields, a.unexported ++ b.unexported⟩

/-- The visible fields of a record found at `path`, each as often as `copies`
    says. -/
def visibleFields (copies : Nat) (path : List Nat) (fs : List FieldDecl) : List Field :=
  fs.zipIdx.flatMap fun (f, i) =>
    match f.role with
    | .visible name tagged => List.replicate copies ⟨name, tagged, path ++ [i]⟩
    | _ => []

/-- The records that the fields of a record found at `path` promote. -/
def promotions (path : List Nat) (fs : List FieldDecl) : List Promotion :=
  fs.zipIdx.filterMap fun (f, i) =>
    match f.role with
    | .promotes record => some (record, path ++ [i])
    | _ => none

/-- The identifiers of a record that are out of bounds. -/
def unexportedNames (fs : List FieldDecl) : List String :=
  fs.filterMap fun f =>
    match f.role with
    | .unexported name => some name
    | _ => none

end Flattening

/-- The outcome of one level: what it finds, the level below it, and the records
    still in the pool. -/
structure Expansion where
  found : Flattening
  below : List Promotion
  pool : Family

namespace Expansion

/-- Expands the records of a level that are still in the pool, in order.  `copies`
    says how often the fields of a record count. -/
def ofLevel (copies : String → Nat) : Family → List Promotion → Expansion
  | pool, [] => ⟨.empty, [], pool⟩
  | pool, (record, path) :: level =>
    match Members.get? record pool with
    | none => ofLevel copies pool level
    | some fs =>
      let rest := ofLevel copies (Members.remove record pool) level
      ⟨.append ⟨Flattening.visibleFields (copies record) path fs, Flattening.unexportedNames fs⟩
          rest.found,
        Flattening.promotions path fs ++ rest.below, rest.pool⟩

theorem length_remove {α : Type} {name : String} {v : α} :
    ∀ {ms : Members α}, Members.get? name ms = some v →
      (Members.remove name ms).length + 1 = ms.length
  | [], h => by simp [Members.get?] at h
  | (k, w) :: ms, h => by
    by_cases hk : k = name
    · simp [Members.remove, hk]
    · simp only [Members.get?, hk, if_false] at h
      simp [Members.remove, hk, length_remove h]

theorem pool_le (copies : String → Nat) (pool : Family) (level : List Promotion) :
    (ofLevel copies pool level).pool.length ≤ pool.length := by
  induction level generalizing pool with
  | nil => exact Nat.le_refl _
  | cons p level ih =>
    obtain ⟨record, path⟩ := p
    simp only [ofLevel]
    split
    · exact ih pool
    · next fs h =>
      have := ih (Members.remove record pool)
      have := length_remove h
      simp only; omega

/-- A level that promotes a record has taken one out of the pool. -/
theorem pool_lt (copies : String → Nat) (pool : Family) (level : List Promotion)
    (h : (ofLevel copies pool level).below ≠ []) :
    (ofLevel copies pool level).pool.length < pool.length := by
  induction level generalizing pool with
  | nil => simp [ofLevel] at h
  | cons p level ih =>
    obtain ⟨record, path⟩ := p
    simp only [ofLevel] at h ⊢
    split
    · next hg => rw [hg] at h; exact ih pool h
    · next fs hg =>
      have := pool_le copies (Members.remove record pool) level
      have := length_remove hg
      simp only; omega

end Expansion

/-- How often the fields of a record count that occurs on a level: once, or twice if
    it occurs more than once. -/
def copiesOn (level : List Promotion) (record : String) : Nat :=
  if 1 < level.countP (·.1 = record) then 2 else 1

/-- What the levels from the given one down find. -/
def Flattening.ofLevel (pool : Family) (level : List Promotion) : Flattening :=
  let out := Expansion.ofLevel (copiesOn level) pool level
  if _h : out.below = [] then out.found else out.found.append (ofLevel out.pool out.below)
termination_by pool.length
decreasing_by exact Expansion.pool_lt _ _ _ _h

/-! ## Dominance -/

/-- The shallowest of some fields. -/
def shallowest (fs : List Field) : List Field :=
  match (fs.map (·.index.length)).min? with
  | none => []
  | some depth => fs.filter (·.index.length = depth)

/-- The only member of a list. -/
def only? {α : Type} : List α → Option α
  | [a] => some a
  | _ => none

/-- The field that wins among those of one name. -/
def dominant (fs : List Field) : Option Field :=
  match only? (shallowest fs) with
  | some f => some f
  | none => only? ((shallowest fs).filter (·.tagged))

/-! ## The index -/

/-- Puts a field in front of the first one that does not come before it. -/
def insertByIndex (f : Field) : List Field → List Field
  | [] => [f]
  | g :: gs => if g.index < f.index then g :: insertByIndex f gs else f :: g :: gs

/-- Fields in the order of their positions. -/
def sortByIndex (fs : List Field) : List Field := fs.foldr insertByIndex []

/-- The visible fields of a record, and the identifiers that may not be addressed. -/
structure FieldIndex where
  fields : List Field
  unexported : List String
  deriving Repr, Inhabited

/-- The answer to a name. -/
inductive FieldLookup where
  | field (f : Field)
  | unexported
  | missing
  deriving DecidableEq, Repr

namespace FieldIndex

/-- The index of what flattening found: for each name the dominant field. -/
def ofFlattening (found : Flattening) : FieldIndex :=
  let names := (found.fields.map (·.name)).eraseDups
  ⟨sortByIndex (names.filterMap fun name => dominant (found.fields.filter (·.name = name))),
    found.unexported⟩

/-- The index of a record of a family. -/
def build (family : Family) (record : String) : FieldIndex :=
  ofFlattening (Flattening.ofLevel family [(record, [])])

/-- Where in the index the field of a name stands. -/
def position? (ix : FieldIndex) (name : String) : Option Nat :=
  ix.fields.findIdx? (·.name = name)

/-- The field a name addresses: the one of exactly that name, else the first one
    whose name is the same up to case. -/
def lookup (ix : FieldIndex) (name : String) : FieldLookup :=
  match ix.fields.find? (·.name = name) with
  | some f => .field f
  | none =>
    let folded := Text.lower name
    match ix.fields.find? fun f => Text.lower f.name = folded with
    | some f => .field f
    | none => if name ∈ ix.unexported then .unexported else .missing

end FieldIndex

end DocPointer
