import PeerTags.Session.Step
/-! What a session shows of each step: its answer, the calls it made on each
manager, its log, and the tags it left behind, where they changed. -/
namespace PeerTags.Session

/-- For each manager and each peer of a list, the peer's tags. -/
abbrev Snapshot := List (List (List (String × Amount)))

def World.snapshot (w : World) (peers : List Peer) : Snapshot :=
  w.seats.map fun seat => peers.map seat.manager.peerTags

/-- The calls that were made on the way from one world to the next, by manager. -/
def callsBetween (before after : World) : List (Nat × Call) :=
  (List.zip before.seats after.seats).zipIdx.flatMap fun ((old, new), i) =>
    (new.manager.calls.drop old.manager.calls.length).map (i, ·)

/-- Decay visits peers in no order of its own, so its entries are sorted. -/
def logLines (s : Step) (log : List LogEntry) : List (List String) :=
  let lines := log.map LogEntry.line
  match s with
  | .command _ (.advance _) => lines.mergeSort fun a b => (compare a b).isLE
  | _ => lines

structure Report where
  answer : Answer
  calls : List (Nat × Call)
  log : List (List String)
  tags : Option Snapshot

def World.report (w : World) (peers : List Peer) (s : Step) : World × Report :=
  let o := w.step s
  let tags := o.world.snapshot peers
  (o.world, ⟨o.answer, callsBetween w o.world, logLines s o.log,
    if tags = w.snapshot peers then none else some tags⟩)

/-- A report for every step, and the world at the end. -/
def World.reports (peers : List Peer) (w : World) : List Step → List Report × World
  | [] => ([], w)
  | s :: rest =>
    let (next, report) := w.report peers s
    let (later, last) := next.reports peers rest
    (report :: later, last)

end PeerTags.Session
