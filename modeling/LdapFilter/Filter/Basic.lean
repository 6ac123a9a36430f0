import LdapFilter.Filter.Test

/-!
# Filters

A filter combines attribute tests. A negation holds a single test, the members of a nor group are
tests, and the children of the other groups are filters of any kind. A group carries the number of
bytes of its text, which every insertion keeps up to date.
-/

namespace LdapFilter

inductive Filter where
  /-- A single test. -/
  | test (t : Test)
  /-- The negation of a single test. -/
  | not (t : Test)
  /-- All children match. -/
  | and (children : List Filter) (size : Nat)
  /-- Some child matches. -/
  | or (children : List Filter) (size : Nat)
  /-- No member matches. -/
  | nor (members : List Test) (size : Nat)

namespace Filter

/-! ### Parts -/

def kind : Filter → Kind
  | .test t => t.kind
  | .not _ => .not
  | .and _ _ => .and
  | .or _ _ => .or
  | .nor _ _ => .nor

def isLeaf (f : Filter) : Bool :=
  f.kind.isLeaf

def test? : Filter → Option Test
  | .test t => some t
  | _ => none

/-- A member of a nor group as a filter: an equality or an absence stands there negated. -/
def ofMember (t : Test) : Filter :=
  if t.isLiteral then .not t else .test t

/-- The direct children: those of a group, the test under a negation, none of a single test. -/
def children : Filter → List Filter
  | .test _ => []
  | .not t => [.test t]
  | .and children _ | .or children _ => children
  | .nor members _ => members.map ofMember

/-! ### Sizes -/

/-- The bytes that a group has beside its children, or a negation beside its test. -/
def groupOverhead : Nat := 3

/-- How many bytes the text of a filter has. -/
def size : Filter → Nat
  | .test t => t.size
  | .not t => t.size + groupOverhead
  | .and _ size | .or _ size | .nor _ size => size

/-- How many bytes the texts of filters have, one after the other. -/
def totalSize : List Filter → Nat
  | [] => 0
  | f :: fs => f.size + totalSize fs

@[simp] theorem totalSize_append (fs gs : List Filter) :
    totalSize (fs ++ gs) = totalSize fs + totalSize gs := by
  induction fs with
  | nil => simp [totalSize]
  | cons f fs ih => simp [totalSize, ih, Nat.add_assoc]

/-! ### Making filters -/

/-- A test of an equality, or of an absence when the value is empty. -/
def equal (attr value : String) : Except FilterError Filter :=
  .test <$> Test.ofValue attr (some value)

def absent (attr : String) : Except FilterError Filter :=
  .test <$> Test.ofValue attr none

/-- A test that every bit of a mask is set. -/
def band (attr : String) (mask : Int64) : Except FilterError Filter :=
  .test <$> Test.ofMask .all attr mask

/-- A test that some bit of a mask is set. -/
def bor (attr : String) (mask : Int64) : Except FilterError Filter :=
  .test <$> Test.ofMask .any attr mask

def recurse (attr entry : String) : Except FilterError Filter :=
  .test <$> Test.ofEntry attr entry

/-- The test that a child of a filter of some kind is, and an error when it is not one. -/
def asTest (parent : Kind) (child : Filter) : Except FilterError Test :=
  match child.test? with
  | some t => .ok t
  | none => .error (.invalidChild parent child.kind)

def negate (inner : Filter) : Except FilterError Filter :=
  .not <$> inner.asTest .not

def andOf (children : List Filter) : Filter :=
  .and children (groupOverhead + totalSize children)

def orOf (children : List Filter) : Filter :=
  .or children (groupOverhead + totalSize children)

/-- The group of none of the given tests. -/
def noneOf (members : List Test) : Filter :=
  .nor members (groupOverhead + totalSize (members.map ofMember))

/-- The group of none of the given children, which have to be single tests. -/
def norOf (children : List Filter) : Except FilterError Filter :=
  noneOf <$> children.mapM (asTest .nor)

def andWith (f g : Filter) : Filter :=
  andOf [f, g]

/-! ### Inserting children -/

/-- A filter with one more child at its end. Without a child nothing changes; a nor group takes
single tests alone, and neither a test nor a negation takes any child. -/
def push (f : Filter) (child : Option Filter) : Except FilterError Filter :=
  match f, child with
  | f, none => .ok f
  | .and children size, some child => .ok (.and (children ++ [child]) (size + child.size))
  | .or children size, some child => .ok (.or (children ++ [child]) (size + child.size))
  | .nor members size, some child => do
    let t ← child.asTest .nor
    return .nor (members ++ [t]) (size + (ofMember t).size)
  | .test t, some _ => .error (.notAGroup t.kind)
  | .not _, some _ => .error (.notAGroup .not)

/-- A filter after a child was offered to it: as it was before when it does not take the child. -/
def offer (f : Filter) (child : Option Filter) : Filter :=
  match f.push child with
  | .ok g => g
  | .error _ => f

/-- Insert a child at the end of a filter, in place. The filter is what it has become when the
insertion returns, whether that is with an error or not. -/
def insert (child : Option Filter) : ExceptT FilterError (StateM Filter) Unit := do
  let some child := child | return
  match ← get with
  | .and children size => set (Filter.and (children ++ [child]) (size + child.size))
  | .or children size => set (Filter.or (children ++ [child]) (size + child.size))
  | .nor members size =>
    match child.test? with
    | some t => set (Filter.nor (members ++ [t]) (size + (ofMember t).size))
    | none => throw (.invalidChild .nor child.kind)
  | .test t => throw (.notAGroup t.kind)
  | .not _ => throw (.notAGroup .not)

@[simp] theorem push_none (f : Filter) : f.push none = .ok f := by
  cases f <;> rfl

@[simp] theorem isLeaf_test (t : Test) : (Filter.test t).isLeaf = true := by
  cases t with
  | bitwise rule => cases rule <;> rfl
  | _ => rfl

/-- The leaves are the single tests. -/
theorem isLeaf_iff {f : Filter} : f.isLeaf = true ↔ ∃ t, f = .test t := by
  cases f with
  | test t => simp
  | _ => simp [isLeaf, kind, Kind.isLeaf]

end Filter

end LdapFilter
