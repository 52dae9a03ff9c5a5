import LosslessSyntax.Parse.Parser

/-!
# Scripts of parser calls

A script is a finite program of parser calls. Markers, completed markers and checkpoints are named by
the order in which they are made, each sort by itself; a marker is used once. Two commands have a script
of their own inside: `within` runs it one context deeper, and `speculate` also takes back all it has done
if it fails. A call that faults does not end the script; a failed `attempt` ends the script it stands in,
and the failure goes outward up to the next `speculate`.

* `Call` : the simple calls; `Session.call` carries one out;
* `Command` : calls and blocks; `Command.runAll` runs a script and lists, for every command, what it
  returned and what could be seen of the parser afterwards.
-/

set_option autoImplicit false

namespace LosslessSyntax

inductive Call where
  | advance
  | absent
  | skip
  | missing (kind : Kind)
  | eat (kind : Kind)
  | expect (kind : Kind)
  | isAt (kind : Kind)
  | isAtAny (kinds : KindSet)
  | skipUntil (recovery : KindSet)
  | recover (expected : Kind) (recovery : KindSet)
  | require (kind : Kind)
  | notApplicable
  | start
  | complete (marker : Nat) (kind : Kind)
  | completeList (marker : Nat)
  | abandon (marker : Nat)
  | lose (marker : Nat)
  | precede (completed : Nat)
  | checkpoint
  /-- A checkpoint that was not taken by the parser. -/
  | capture (context : ParseContext) (snapshot offset : Nat)
  | rewind (checkpoint : Nat)
  | sameCheckpoint (a b : Nat)
  | inspect (checkpoint : Nat)

/-- A call, or a block with a script of its own. -/
inductive Command where
  | call (c : Call)
  /-- Demands a token and ends the script if it is not there. -/
  | attempt (kind : Kind)
  | within (flags : ContextFlags) (script : List Command)
  /-- Runs the script on trial; with `giveUp` it fails even if all of it ran. -/
  | speculate (script : List Command) (giveUp : Bool)

inductive Reply where
  | nothing
  | answer (b : Bool)
  | satisfied
  | mismatch (m : Mismatch)
  | marker (name : Nat)
  | completed (name : Nat) (kind : Kind)
  | emptyList
  | checkpoint (name : Nat) (c : Checkpoint)
  | contents (c : Checkpoint)
  /-- The offset reached by a speculation that was kept. -/
  | kept (offset : Nat)
  | rolledBack
  | fault (f : Fault)
  /-- The script names something that does not exist, or has been used. -/
  | unknownName
deriving Inhabited

/-- What can be seen of the parser from outside. -/
structure Glance where
  offset : Nat
  peek : Kind
  context : ParseContext
deriving DecidableEq, Repr, Inhabited

def Parser.glance (p : Parser) : Glance := ⟨p.offset, p.peek, p.context⟩

/-- The record of a command: its reply, the parser after it, and the records of a block. -/
inductive Line where
  | plain (reply : Reply) (after : Glance)
  | block (reply : Reply) (after : Glance) (lines : List Line)

/-- A parser with the markers and checkpoints that a script has made; a used marker is gone. -/
structure Session where
  parser : Parser
  markers : List (Option Marker) := []
  completed : List (Option CompletedMarker) := []
  checkpoints : List Checkpoint := []

namespace Session

def addMarker (s : Session) (m : Marker) : Session := { s with markers := s.markers ++ [some m] }

def addCheckpoint (s : Session) (c : Checkpoint) : Session := { s with checkpoints := s.checkpoints ++ [c] }

/-- Runs a step of the parser; a fault becomes the reply. -/
def perform {α : Type} (s : Session) (x : Step Parser α) (reply : α → Reply) : Reply × Session :=
  match x.run s.parser with
  | (.ok a, p) => (reply a, { s with parser := p })
  | (.error f, p) => (.fault f, { s with parser := p })

def withMarker (s : Session) (name : Nat) (use : Marker → Session → Reply × Session) : Reply × Session :=
  match s.markers[name]?.join with
  | some m => use m { s with markers := s.markers.set name none }
  | none => (.unknownName, s)

/-- Names the completed marker with which a call came back. -/
def addCompleted (s : Session) (c : CompletedMarker) : Reply × Session :=
  (.completed s.completed.length c.kind, { s with completed := s.completed ++ [some c] })

/-- Completes a marker, and names the completed marker if there is one. -/
def completing (s : Session) (x : Step Parser (Option CompletedMarker)) : Reply × Session :=
  match x.run s.parser with
  | (.ok (some c), p) => addCompleted { s with parser := p } c
  | (.ok none, p) => (.emptyList, { s with parser := p })
  | (.error f, p) => (.fault f, { s with parser := p })

def call (s : Session) : Call → Reply × Session
  | .advance => s.perform Parser.advance fun _ => .nothing
  | .absent => (.nothing, { s with parser := s.parser.absent })
  | .skip => (.nothing, { s with parser := s.parser.skip })
  | .missing kind => s.perform (Parser.missing kind) fun _ => .nothing
  | .eat kind => s.perform (Parser.eat kind) .answer
  | .expect kind => s.perform (Parser.expect kind) .answer
  | .isAt kind => (.answer (s.parser.isAt kind), s)
  | .isAtAny kinds => (.answer (s.parser.isAtAny kinds), s)
  | .skipUntil recovery => (.nothing, { s with parser := s.parser.skipUntil recovery })
  | .recover expected recovery => s.perform (Parser.recover expected recovery) fun _ => .nothing
  | .require kind =>
    s.perform (Parser.require kind) fun
      | .ok () => .satisfied
      | .error m => .mismatch m
  | .notApplicable => (.mismatch .notApplicable, s)
  | .start => (.marker s.markers.length, s.addMarker s.parser.start)
  | .complete name kind => s.withMarker name fun m s => s.completing (some <$> m.complete kind)
  | .completeList name => s.withMarker name fun m s => s.completing m.completeList
  | .abandon name => s.withMarker name fun _ s => (.nothing, s)
  | .lose name => s.withMarker name fun m s => s.perform (.lift m.lose) fun _ => .nothing
  | .precede name =>
    match s.completed[name]?.join with
    | some c =>
      (.marker s.markers.length, { s with completed := s.completed.set name none }.addMarker c.precede)
    | none => (.unknownName, s)
  | .checkpoint =>
    let c := s.parser.checkpoint
    (.checkpoint s.checkpoints.length c, s.addCheckpoint c)
  | .capture context snapshot offset =>
    let c := Checkpoint.capture context snapshot offset
    (.checkpoint s.checkpoints.length c, s.addCheckpoint c)
  | .rewind name =>
    match s.checkpoints[name]? with
    | some c => s.perform (Parser.rewind c) fun _ => .nothing
    | none => (.unknownName, s)
  | .sameCheckpoint a b =>
    match s.checkpoints[a]?, s.checkpoints[b]? with
    | some c, some d => (.answer (c.equal {} d), s)
    | _, _ => (.unknownName, s)
  | .inspect name =>
    match s.checkpoints[name]? with
    | some c => (.contents c, s)
    | none => (.unknownName, s)

def inContext (s : Session) (c : ParseContext) : Session := { s with parser := { s.parser with context := c } }

/-- Ends a speculation that was started at `c`: what it has done is kept if it did not fail, and taken
back if it did. -/
def endSpeculation (s : Session) (c : Checkpoint) (failure : Option Mismatch) : Reply × Session :=
  match failure with
  | none => (.kept s.parser.offset, s)
  | some _ => s.perform (Parser.rewind c) fun _ => .rolledBack

end Session

namespace Command

mutual

/-- Runs a command: its record, the session after it, and the mismatch that ends the script. -/
def run : Command → Session → Line × Session × Option Mismatch
  | .call c, s =>
    let (reply, s) := s.call c
    (.plain reply s.parser.glance, s, none)
  | .attempt kind, s =>
    match (Parser.require kind).run s.parser with
    | (.ok (.ok ()), p) => (.plain .satisfied p.glance, { s with parser := p }, none)
    | (.ok (.error m), p) => (.plain (.mismatch m) p.glance, { s with parser := p }, some m)
    | (.error f, p) => (.plain (.fault f) p.glance, { s with parser := p }, none)
  | .within flags script, s =>
    let outer := s.parser.context
    let (lines, s, failure) := runAll script (s.inContext (outer.enter flags))
    let s := s.inContext outer
    (.block .nothing s.parser.glance lines, s, failure)
  | .speculate script giveUp, s =>
    let c := s.parser.checkpoint
    let outer := s.parser.context
    let (lines, s, failure) := runAll script (s.inContext (outer.enter { speculating := true }))
    let failure := if giveUp then failure.or (some .notApplicable) else failure
    let (reply, s) := (s.inContext outer).endSpeculation c failure
    (.block reply s.parser.glance lines, s, none)

/-- Runs a script up to its end or to the first failed `attempt`. -/
def runAll : List Command → Session → List Line × Session × Option Mismatch
  | [], s => ([], s, none)
  | c :: rest, s =>
    match run c s with
    | (line, s, some m) => ([line], s, some m)
    | (line, s, none) =>
      let (lines, s, failure) := runAll rest s
      (line :: lines, s, failure)

end

end Command

end LosslessSyntax
