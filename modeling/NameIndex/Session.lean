import NameIndex.Index.Bulk
import NameIndex.Index.Image
import NameIndex.Operation
import NameIndex.Outline.Values

/-!
# Sessions

A session is a caller at work on several indexes. The caller holds the entries that the indexes hand
back, each in a place of its own: a place whose entry is given away stays empty, so places never
move. A session carries out commands one by one, each on one of the indexes, and ends at the first
fault.
-/

namespace NameIndex

/-- One thing that a caller does with an index. -/
inductive Command where
  /-- Carries out an operation. -/
  | operate (op : Operation Int)
  /-- Enrolls a held entry. -/
  | enrollHeld (place : Nat)
  /-- Enrolls the names of a numbering. -/
  | enrollNumbered (names : Numbering)
  /-- Removes the names of a numbering. -/
  | removeNumbered (names : Numbering)
  /-- Enrolls and removes an entry a number of times. -/
  | churn (entry : Entry Int) (rounds : Nat)
  /-- Removes the entry of a name. -/
  | removeName (name : Name)
  /-- Adds a copy of the index to the session. -/
  | copyIndex
  /-- Adds a new index to the session, with an image laid over it if there is one. -/
  | create (config : Config) (entropy : UInt64) (image : Option (Image Int))
  /-- Writes out the linked structure. -/
  | image
  /-- Counts the levels in use. -/
  | activeLevels
  /-- Lists the heights in name order. -/
  | heights
  /-- Counts the entries of each height. -/
  | histogram
  /-- Prints the index. -/
  | outline
  /-- Prints the entry of a cookie. -/
  | outlineEntry (cookie : Cookie)
  /-- Copies the entry of a cookie for the caller. -/
  | copyEntry (cookie : Cookie)
  /-- Shows a held entry. -/
  | showHeld (place : Nat)
  /-- Changes the value of a held entry. -/
  | setHeld (place : Nat) (value : Int)
  /-- Copies a held entry. -/
  | copyHeld (place : Nat)
  /-- Takes a held entry apart. -/
  | takeApart (place : Nat)

/-- What the caller gets for a command. -/
inductive Reply where
  /-- The answer to an operation. -/
  | answer (answer : Answer Int)
  /-- The place holds no entry to enroll. -/
  | nothingHeld
  /-- How a series of enrolments went. -/
  | tally (tally : Tally)
  /-- The latest cookies of an entry that came and went, or its refusal. -/
  | churned (result : Except (EnrollError Int) (List Cookie))
  /-- A number. -/
  | number (n : Nat)
  /-- Several numbers. -/
  | numbers (ns : List Nat)
  /-- A linked structure, with the greatest number of slots. -/
  | image (image : Image Int) (maxCapacity : Nat)
  /-- Something to print. -/
  | outline (outline : Option Outline)
  /-- The name and the value of an entry. -/
  | parts (parts : Option (Name × Int))

/-- A command on one of the indexes. -/
structure Step where
  /-- The number of the index. -/
  index : Nat
  /-- The command. -/
  command : Command

/-- How a step ends. -/
inductive Outcome where
  /-- The session has no index of that number. -/
  | noIndex
  /-- A reply, with the number of entries and of slots of the index after it. -/
  | replied (reply : Reply) (length capacity : Nat)
  /-- The command stopped. -/
  | failed (fault : Fault)

/-- Indexes and the entries that their caller holds. -/
structure Session (G : Type) where
  /-- The indexes, in the order they were made. -/
  indexes : Array (Index G Int)
  /-- The places of the entries held, in the order they were handed back. -/
  held : Array (Option (Entry Int))

namespace Session

variable {G : Type}

/-- A session of one new index, whose caller already holds some entries. -/
def start [LevelSource G] (config : Config) (entropy : UInt64) (image : Option (Image Int))
    (held : List (Entry Int)) : Except Fault (Session G) := do
  let ix ← Index.createWith config entropy image
  return ⟨#[ix], (held.map some).toArray⟩

/-- The number of latest cookies that a reply shows. -/
def latest : Nat := 8

/-- The entry held in a place. -/
def heldAt (s : Session G) (place : Nat) : Option (Entry Int) := s.held[place]?.join

/-- Adds entries to those held. -/
def keep (s : Session G) (es : List (Entry Int)) : Session G :=
  { s with held := s.held ++ es.map some }

/-- Fills or empties a place. -/
def setHeldAt (s : Session G) (place : Nat) (e : Option (Entry Int)) : Session G :=
  { s with held := s.held.setIfInBounds place e }

/-- Adds an index. -/
def addIndex (s : Session G) (ix : Index G Int) : Session G :=
  { s with indexes := s.indexes.push ix }

/-- A reply to a command that leaves the index as it is. -/
def leave (s : Session G) (ix : Index G Int) (reply : Reply) : Reply × Session G × Index G Int :=
  (reply, s, ix)

/-- Carries out an operation and holds what it hands back. -/
def operate [LevelSource G] (s : Session G) (ix : Index G Int) (op : Operation Int) :
    Except Fault (Reply × Session G × Index G Int) := do
  let (answer, ix) ← ix.apply op
  return (.answer answer, s.keep answer.handedBack, ix)

/-- A reply that hands an entry back, which is then held. -/
def handBack (s : Session G) (ix : Index G Int) (e : Option (Entry Int)) :
    Reply × Session G × Index G Int :=
  (.answer (.owned e), s.keep e.toList, ix)

/-- Carries out a command on an index of the session: the reply, the session with what it now holds,
and the index after the command. -/
def perform [LevelSource G] (s : Session G) (ix : Index G Int) :
    Command → Except Fault (Reply × Session G × Index G Int)
  | .operate op => s.operate ix op
  | .enrollHeld place =>
    match s.heldAt place with
    | some e => (s.setHeldAt place none).operate ix (.enroll e)
    | none => .ok (s.leave ix .nothingHeld)
  | .enrollNumbered names => do
    let (tally, ix) ← ix.enrollNumbered names
    return s.leave ix (.tally tally)
  | .removeNumbered names => do
    let (removed, ix) ← ix.removeNumbered names
    return s.leave ix (.number removed)
  | .churn e rounds => do
    let (result, ix) ← ix.churn e [] rounds
    return s.leave ix (.churned (result.map fun got => (got.take latest).reverse))
  | .removeName name => do
    let (e, ix) ← ix.removeName name
    return s.handBack ix e
  | .copyIndex => .ok ((s.addIndex ix).leave ix (.number s.indexes.size))
  | .create config entropy image => do
    let new ← Index.createWith config entropy image
    return (s.addIndex new).leave ix (.number s.indexes.size)
  | .image => .ok (s.leave ix (.image ix.image ix.maxCapacity))
  | .activeLevels => .ok (s.leave ix (.number ix.activeLevels))
  | .heights => do return s.leave ix (.numbers (← ix.heights))
  | .histogram => do return s.leave ix (.numbers (← ix.histogram))
  | .outline => do return s.leave ix (.outline (some (← ix.outline)))
  | .outlineEntry c => .ok (s.leave ix (.outline ((ix.get? c).map Entry.outline)))
  | .copyEntry c => .ok (s.handBack ix ((ix.get? c).map Entry.unlinked))
  | .showHeld place => .ok (s.leave ix (.answer (.owned (s.heldAt place))))
  | .setHeld place value =>
    let changed := s.setHeldAt place ((s.heldAt place).map fun e => { e with value })
    .ok (changed.leave ix (.answer (.value ((s.heldAt place).map (·.value)))))
  | .copyHeld place => .ok (s.handBack ix ((s.heldAt place).map Entry.unlinked))
  | .takeApart place =>
    .ok ((s.setHeldAt place none).leave ix
      (.parts ((s.heldAt place).map fun e => (e.name, e.value))))

/-- Carries out a step. After a fault the session is as it was before the step. -/
def step [LevelSource G] (s : Session G) (todo : Step) : Outcome × Session G :=
  match s.indexes[todo.index]? with
  | none => (.noIndex, s)
  | some ix =>
    match s.perform ix todo.command with
    | .error fault => (.failed fault, s)
    | .ok (reply, s, ix) =>
      (.replied reply ix.count ix.capacity,
        { s with indexes := s.indexes.setIfInBounds todo.index ix })

/-- Carries out steps in turn, up to the first that fails. -/
def run [LevelSource G] (s : Session G) : List Step → List Outcome
  | [] => []
  | todo :: rest =>
    match s.step todo with
    | (.failed fault, _) => [.failed fault]
    | (outcome, s) => outcome :: s.run rest

/-- Carries out each step on the session as it is at the start. -/
def probe [LevelSource G] (s : Session G) (steps : List Step) : List Outcome :=
  steps.map fun todo => (s.step todo).1

end Session

end NameIndex
