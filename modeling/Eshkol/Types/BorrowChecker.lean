import Eshkol.Base.Interning

/-!
# The borrow checker

Every tracked value has an ownership state, a number of shared borrows and a mark for a mutable one. Values are
known by name only: a declaration of a name that is tracked already takes the place of the value, and leaving a
scope removes none.
-/

namespace Types.Borrow

/-- `BorrowState`. -/
inductive BorrowState where
  | owned | moved | borrowedShared | borrowedMut | dropped
deriving DecidableEq

/-- `BorrowInfo`. -/
structure BorrowInfo where
  state : BorrowState := .owned
  borrowCount : ℕ := 0
  hasMutableBorrow : Bool := false
  scopeDepth : ℕ := 0
deriving DecidableEq

/-- `BorrowError::Kind`. -/
inductive BorrowErrorKind where
  | useAfterMove | useAfterDrop | moveWhileBorrowed | doubleMutableBorrow | mutableBorrowWhileShared
  | borrowOutlivesValue
deriving DecidableEq

/-- `BorrowError`. -/
structure BorrowError where
  kind : BorrowErrorKind
  variableName : String
  message : String
deriving DecidableEq

/-- `BorrowChecker`. -/
structure BorrowChecker where
  values : Std.TreeMap String BorrowInfo := ∅
  errors : List BorrowError := []
  currentScope : ℕ := 0

namespace BorrowInfo

/-- The value has an active borrow. -/
def isBorrowed (info : BorrowInfo) : Bool := 0 < info.borrowCount || info.hasMutableBorrow

end BorrowInfo

namespace BorrowChecker

/-- `addError`. -/
def addError (bc : BorrowChecker) (kind : BorrowErrorKind) (name message : String) : BorrowChecker :=
  { bc with errors := bc.errors ++ [⟨kind, name, message⟩] }

/-- Overwrites what is known of a value. -/
def setInfo (bc : BorrowChecker) (name : String) (info : BorrowInfo) : BorrowChecker :=
  { bc with values := bc.values.insert name info }

/-- `pushScope`. -/
def pushScope (bc : BorrowChecker) : BorrowChecker := { bc with currentScope := bc.currentScope + 1 }

/-- The check of `popScope` for one value. -/
def checkOutlives (scope : ℕ) (bc : BorrowChecker) (entry : String × BorrowInfo) : BorrowChecker :=
  if entry.2.scopeDepth = scope ∧ entry.2.isBorrowed then
    bc.addError .borrowOutlivesValue entry.1 ("Borrow of '" ++ entry.1 ++ "' outlives its scope")
  else bc

/-- `popScope`: borrows that outlive the scope are errors. -/
def popScope (bc : BorrowChecker) : BorrowChecker :=
  if 0 < bc.currentScope then
    let checked := bc.values.toList.foldl (checkOutlives bc.currentScope) bc
    { checked with currentScope := bc.currentScope - 1 }
  else bc

/-- `declareOwned`. -/
def declareOwned (bc : BorrowChecker) (name : String) : BorrowChecker :=
  bc.setInfo name { state := .owned, scopeDepth := bc.currentScope }

/-- `move`. -/
def move (bc : BorrowChecker) (name : String) : Bool × BorrowChecker :=
  match bc.values[name]? with
  | none => (false, bc)
  | some info =>
    if info.state = .moved then
      (false, bc.addError .useAfterMove name ("Cannot move '" ++ name ++ "': already moved"))
    else if info.state = .dropped then
      (false, bc.addError .useAfterDrop name ("Cannot move '" ++ name ++ "': already dropped"))
    else if info.isBorrowed then
      (false, bc.addError .moveWhileBorrowed name ("Cannot move '" ++ name ++ "': currently borrowed"))
    else (true, bc.setInfo name { info with state := .moved })

/-- `drop`. -/
def drop (bc : BorrowChecker) (name : String) : Bool × BorrowChecker :=
  match bc.values[name]? with
  | none => (false, bc)
  | some info =>
    if info.state = .moved ∨ info.state = .dropped then (false, bc)
    else if info.isBorrowed then
      (false, bc.addError .moveWhileBorrowed name ("Cannot drop '" ++ name ++ "': currently borrowed"))
    else (true, bc.setInfo name { info with state := .dropped })

/-- `borrowShared`. -/
def borrowShared (bc : BorrowChecker) (name : String) : Bool × BorrowChecker :=
  match bc.values[name]? with
  | none => (false, bc)
  | some info =>
    if info.state = .moved then
      (false, bc.addError .useAfterMove name ("Cannot borrow '" ++ name ++ "': already moved"))
    else if info.state = .dropped then
      (false, bc.addError .useAfterDrop name ("Cannot borrow '" ++ name ++ "': already dropped"))
    else if info.hasMutableBorrow then
      (false, bc.addError .mutableBorrowWhileShared name
        ("Cannot create shared borrow of '" ++ name ++ "': mutable borrow active"))
    else
      (true, bc.setInfo name { info with
        borrowCount := info.borrowCount + 1
        state := if info.state = .owned then .borrowedShared else info.state })

/-- `borrowMut`. -/
def borrowMut (bc : BorrowChecker) (name : String) : Bool × BorrowChecker :=
  match bc.values[name]? with
  | none => (false, bc)
  | some info =>
    if info.state = .moved then
      (false, bc.addError .useAfterMove name ("Cannot borrow '" ++ name ++ "': already moved"))
    else if info.state = .dropped then
      (false, bc.addError .useAfterDrop name ("Cannot borrow '" ++ name ++ "': already dropped"))
    else if 0 < info.borrowCount then
      (false, bc.addError .mutableBorrowWhileShared name
        ("Cannot create mutable borrow of '" ++ name ++ "': shared borrows active"))
    else if info.hasMutableBorrow then
      (false, bc.addError .doubleMutableBorrow name
        ("Cannot create mutable borrow of '" ++ name ++ "': already mutably borrowed"))
    else (true, bc.setInfo name { info with hasMutableBorrow := true, state := .borrowedMut })

/-- The value after one borrow of it has ended. -/
def returned (info : BorrowInfo) : BorrowInfo :=
  let released :=
    if info.hasMutableBorrow then { info with hasMutableBorrow := false }
    else if 0 < info.borrowCount then { info with borrowCount := info.borrowCount - 1 }
    else info
  if released.hasMutableBorrow = false ∧ released.borrowCount = 0 then
    if released.state = .borrowedShared ∨ released.state = .borrowedMut then { released with state := .owned }
    else released
  else released

/-- `returnBorrow`. -/
def returnBorrow (bc : BorrowChecker) (name : String) : BorrowChecker :=
  match bc.values[name]? with
  | none => bc
  | some info => bc.setInfo name (returned info)

/-- `getState`; an unknown value counts as owned. -/
def getState (bc : BorrowChecker) (name : String) : BorrowState :=
  match bc.values[name]? with
  | none => .owned
  | some info => info.state

/-- `canMove`. -/
def canMove (bc : BorrowChecker) (name : String) : Bool :=
  match bc.values[name]? with
  | none => true
  | some info => info.state = .owned ∧ info.borrowCount = 0 ∧ !info.hasMutableBorrow

/-- `canBorrowShared`. -/
def canBorrowShared (bc : BorrowChecker) (name : String) : Bool :=
  match bc.values[name]? with
  | none => true
  | some info => (info.state = .owned ∨ info.state = .borrowedShared) ∧ !info.hasMutableBorrow

/-- `canBorrowMut`. -/
def canBorrowMut (bc : BorrowChecker) (name : String) : Bool :=
  match bc.values[name]? with
  | none => true
  | some info => info.state = .owned ∧ info.borrowCount = 0 ∧ !info.hasMutableBorrow

end BorrowChecker

/-- A call of an operation that changes the checker. -/
inductive BorrowOp where
  | pushScope
  | popScope
  | declareOwned (name : String)
  | move (name : String)
  | drop (name : String)
  | borrowShared (name : String)
  | borrowMut (name : String)
  | returnBorrow (name : String)
deriving DecidableEq

namespace BorrowOp

/-- The name that a call is about. -/
def name? : BorrowOp → Option String
  | pushScope | popScope => none
  | declareOwned name | move name | drop name | borrowShared name | borrowMut name | returnBorrow name => some name

end BorrowOp

open BorrowChecker in
/-- The checker after a call. -/
def step (bc : BorrowChecker) : BorrowOp → BorrowChecker
  | .pushScope => pushScope bc
  | .popScope => popScope bc
  | .declareOwned name => declareOwned bc name
  | .move name => (move bc name).2
  | .drop name => (drop bc name).2
  | .borrowShared name => (borrowShared bc name).2
  | .borrowMut name => (borrowMut bc name).2
  | .returnBorrow name => returnBorrow bc name

/-- The checker after a sequence of calls on a new one. -/
def run (ops : List BorrowOp) : BorrowChecker := ops.foldl step {}

end Types.Borrow
