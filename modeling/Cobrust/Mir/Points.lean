import Cobrust.Mir.BorrowSpec

/-!
# Program points

The statements and terminators along a path, with the locals that each one reads, moves, assigns and
drops.
-/

namespace Cobrust.Mir

inductive Point where
  | stmt (stmt : Statement)
  | term (term : Terminator)

/-- The points of a block, in execution order. -/
def BasicBlock.points (block : BasicBlock) : List Point :=
  block.statements.map .stmt ++ [.term block.terminator]

/-- The points of a path. -/
def Body.points (body : Body) (path : List BlockId) : List Point :=
  path.flatMap fun b => (body.blocks[b]?).elim [] BasicBlock.points

mutual

/-- The operands inside the index projections of a place, at any depth. -/
def Place.indexOperands : Place → List Operand
  | .mk _ ps => projectionOperands ps

def projectionOperands : List Projection → List Operand
  | [] => []
  | .index op :: ps => op.withNested ++ projectionOperands ps
  | .field _ :: ps => projectionOperands ps
  | .deref :: ps => projectionOperands ps
  | .discriminant :: ps => projectionOperands ps

/-- An operand, followed by the operands inside its index projections. -/
def Operand.withNested : Operand → List Operand
  | .copy p => .copy p :: p.indexOperands
  | .move p => .move p :: p.indexOperands
  | .constant c => [.constant c]

end

def Operand.indexOperands : Operand → List Operand
  | copy p => p.indexOperands
  | move p => p.indexOperands
  | constant _ => []

/-- The places an rvalue inspects other than through an operand. -/
def Rvalue.inspected : Rvalue → List Place
  | ref _ p => [p]
  | discriminant p => [p]
  | len p => [p]
  | _ => []

namespace Point

/-- The place a point writes. -/
def destination : Point → Option Place
  | stmt ⟨.assign place _, _⟩ => some place
  | term (.call _ _ place _ _) => some place
  | _ => none

def operands : Point → List Operand
  | stmt ⟨.assign _ rvalue, _⟩ => rvalue.operands
  | stmt _ => []
  | term t => t.operands

def inspected : Point → List Place
  | stmt ⟨.assign _ rvalue, _⟩ => rvalue.inspected
  | _ => []

def dropped : Point → List Place
  | term (.drop place _) => [place]
  | _ => []

/-- The locals moved out by `Use(Move(..))` or as a `Move` argument of a call. -/
def moves : Point → List LocalId
  | stmt ⟨.assign _ rvalue, _⟩ => rvalue.movedOut
  | term (.call _ args _ _ _) => args.flatMap Operand.moveRoots
  | _ => []

/-- The local that a point assigns as a whole. -/
def reassigns (p : Point) : List LocalId :=
  (p.destination.toList.filter (·.projections.isEmpty)).map Place.localId

/-- The local of which a point assigns a projection. -/
def partialWrites (p : Point) : List LocalId :=
  (p.destination.toList.filter (!·.projections.isEmpty)).map Place.localId

/-- The reads that the borrow checker tests. -/
def checkedReads (p : Point) : List LocalId :=
  p.operands.flatMap Operand.readRoots

/-- The operands inside the index projections of any place of a point. -/
def nestedOperands (p : Point) : List Operand :=
  p.operands.flatMap Operand.indexOperands ++
    (p.inspected ++ p.destination.toList ++ p.dropped).flatMap Place.indexOperands

def nestedReads (p : Point) : List LocalId := p.nestedOperands.flatMap Operand.readRoots

/-- The reads of all `Copy` and `Move` operands of a point. -/
def operandReads (p : Point) : List LocalId := p.checkedReads ++ p.nestedReads

/-- The locals that some `Move` operand of a point names. -/
def moveOperands (p : Point) : List LocalId :=
  (p.operands ++ p.nestedOperands).flatMap Operand.moveRoots

/-- The locals a point drops. -/
def drops (p : Point) : List LocalId := p.dropped.map Place.localId

/-- The reads that the borrow checker does not test: places that are borrowed, measured or
discriminated, and operands inside index projections. -/
def uncheckedReads (p : Point) : List LocalId := p.inspected.map Place.localId ++ p.nestedReads

def reads (p : Point) : List LocalId := p.checkedReads ++ p.uncheckedReads

/-- A call that moves a local and stores its result in a projection of that local. -/
def StoresIntoMoved : Point → Prop
  | term (.call _ args place _ _) =>
    place.projections ≠ [] ∧ place.localId ∈ args.flatMap Operand.moveRoots
  | _ => False

end Point

end Cobrust.Mir
