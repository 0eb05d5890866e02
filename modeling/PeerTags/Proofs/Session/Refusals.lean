import PeerTags.Proofs.Session.Turns
/-! What fails changes nothing else. A manager that refuses to set or clear a tag has recorded
the call, and one that refuses anything else is as it was before. A delivery has the effect
of its topics that could be bumped, wherever among them the others stand. -/
namespace PeerTags

namespace Manager

variable {m : Manager} {e : Error}

theorem tag_refused {peer : Peer} {name : String} {value : Amount} (refused : (m.tag peer name value).2 = .error e) :
    (m.tag peer name value).1 = m.note (.tag peer name value) := by
  rw [tag_eq] at refused ⊢
  split at refused
  · rename_i rejects
    rw [if_pos rejects]
  · cases refused

theorem untag_refused {peer : Peer} {name : String} (refused : (m.untag peer name).2 = .error e) :
    (m.untag peer name).1 = m.note (.untag peer name) := by
  rw [untag_eq] at refused ⊢
  split at refused
  · rename_i rejects
    rw [if_pos rejects]
  · cases refused

theorem register_refused {name : String} {interval : Duration} {decay : Decay} {bump : Bump}
    (refused : (m.register name interval decay bump).2 = .error e) :
    m.register name interval decay bump = (m, .error e) := by
  rcases register_cases m name interval decay bump with ⟨_, issued⟩ | ⟨e', same⟩
  · rw [issued] at refused
    cases refused
  · rw [same] at refused ⊢
    cases refused
    rfl

/-- A bump under crossed bounds is not refused, it breaks off. -/
theorem bump_refused {number : Nat} {peer : Peer} {delta : Amount} (refused : (m.bump number peer delta).2 = .error e)
    (calm : e ≠ .crossedBounds) : (m.bump number peer delta).1 = m := by
  cases found : m.openTag number with
  | error e' => rw [bump_of_error found]
  | ok d =>
      cases value : d.bump.apply ((d.values.get? peer).getD 0) delta with
      | none =>
          rw [bump_of_crossed found value] at refused
          cases refused
          exact absurd rfl calm
      | some new =>
          rw [bump_of_ok found value] at refused
          cases refused

theorem remove_refused {number : Nat} {peer : Peer} (refused : (m.remove number peer).2 = .error e) :
    (m.remove number peer).1 = m := by
  cases found : m.openTag number with
  | error e' => rw [remove_of_error found]
  | ok d =>
      simp only [remove, found] at refused
      cases refused

theorem close_refused {number : Nat} (refused : (m.close number).2 = .error e) : (m.close number).1 = m := by
  cases found : m.openTag number with
  | error e' => rw [close_of_error found]
  | ok d =>
      obtain ⟨tags, closed⟩ := close_of_ok found
      rw [closed] at refused
      cases refused

end Manager

namespace LogEntry

/-- The topic of a delivery that was bumped. -/
def served? : LogEntry → Option String
  | bumped _ topic => some topic
  | _ => none

/-- The topic of a delivery that was to be bumped. -/
def attempted? : LogEntry → Option String
  | bumped _ topic | bumpFailed _ topic _ => some topic
  | _ => none

end LogEntry

namespace Tagger

variable {t : Tagger} {m : Manager}

/-- A topic that is not served is as good as left out: what else is bumped decides what the
manager becomes. -/
theorem Holds.run_served (h : t.Holds m) (peer : Peer) (topics : List String) :
    m.run ((topics.filter (t.reaches m)).flatMap (t.bumpRequest peer)) = m.run (topics.flatMap (t.bumpRequest peer)) := by
  induction topics generalizing m with
  | nil => rfl
  | cons topic topics ih =>
      rw [List.flatMap_cons, Manager.run_append]
      rcases bumpDelivery_cases h peer topic with ⟨reached, _, _⟩ | ⟨missed, _, same⟩
      · -- bumps close nothing, so the later topics are judged by the manager as it was at first
        have kept := reaches_sameHandles (bumpRequest_sameHandles t m peer topic) t
        rw [List.filter_cons_of_pos reached, List.flatMap_cons, Manager.run_append, ← ih (h.run _), kept]
      · rw [bumpDelivery_fst] at same
        rw [List.filter_cons_of_neg (by rw [missed]; exact Bool.false_ne_true), same, ih h]

theorem deliverTopic_log (peer : Peer) (topic : String) (t : Tagger) (m : Manager) :
    ∃ entry, (deliverTopic peer topic t m).log = [entry] ∧ entry.attempted? = some topic := by
  unfold deliverTopic
  rcases t.bumpDelivery m peer topic with ⟨after, _ | _⟩ <;> exact ⟨_, rfl, rfl⟩

theorem Holds.deliverTopic_served (h : t.Holds m) (peer : Peer) (topic : String) :
    (deliverTopic peer topic t m).log.filterMap LogEntry.served? = [topic].filter (t.reaches m) := by
  unfold deliverTopic
  rcases bumpDelivery_cases h peer topic with ⟨reached, done, _⟩ | ⟨missed, ⟨e, failed⟩, _⟩
  · generalize t.bumpDelivery m peer topic = r at done
    obtain ⟨after, _⟩ := r
    cases done
    rw [List.filter_cons_of_pos reached]
    rfl
  · generalize t.bumpDelivery m peer topic = r at failed
    obtain ⟨after, _⟩ := r
    cases failed
    rw [List.filter_cons_of_neg (by rw [missed]; exact Bool.false_ne_true)]
    rfl

theorem foldl_deliverTopic_log (peer : Peer) (topics : List String) (r : Reaction) :
    (topics.foldl (fun r topic => r.andThen (deliverTopic peer topic)) r).log.map LogEntry.attempted? =
      r.log.map LogEntry.attempted? ++ topics.map some := by
  induction topics generalizing r with
  | nil => exact (List.append_nil _).symm
  | cons topic topics ih =>
      obtain ⟨entry, line, names⟩ := deliverTopic_log peer topic r.tagger r.manager
      have first : (r.andThen (deliverTopic peer topic)).log = r.log ++ [entry] := congrArg (r.log ++ ·) line
      rw [List.foldl_cons, ih, first, List.map_append, List.map_singleton, names, List.append_assoc]
      rfl

theorem foldl_deliverTopic_served (peer : Peer) (topics : List String) {r : Reaction}
    (holds : r.tagger.Holds r.manager) :
    (topics.foldl (fun r topic => r.andThen (deliverTopic peer topic)) r).log.filterMap LogEntry.served? =
      r.log.filterMap LogEntry.served? ++ topics.filter (r.tagger.reaches r.manager) := by
  induction topics generalizing r with
  | nil => exact (List.append_nil _).symm
  | cons topic topics ih =>
      have tagger : (r.andThen (deliverTopic peer topic)).tagger = r.tagger :=
        deliverTopic_tagger peer topic r.tagger r.manager
      have manager : (r.andThen (deliverTopic peer topic)).manager =
          r.manager.run (r.tagger.bumpRequest peer topic) := deliverTopic_manager peer topic r.tagger r.manager
      have first : (r.andThen (deliverTopic peer topic)).log.filterMap LogEntry.served? =
          r.log.filterMap LogEntry.served? ++ [topic].filter (r.tagger.reaches r.manager) := by
        rw [← holds.deliverTopic_served peer topic, ← List.filterMap_append]
        rfl
      have same := bumpRequest_sameHandles r.tagger r.manager peer topic
      rw [List.foldl_cons, ih (by rw [tagger, manager]; exact holds.run _), tagger, manager, first,
        reaches_sameHandles same, List.append_assoc, ← List.filter_append, List.singleton_append]

/-- Each topic of a delivery has its line in the log, in the message's order. -/
theorem deliver_attempted (t : Tagger) (m : Manager) (message : Message) :
    (t.deliver m message).log.map LogEntry.attempted? = message.topics.map some :=
  foldl_deliverTopic_log message.receivedFrom message.topics (.nothing t m)

theorem Holds.deliver_served (h : t.Holds m) (message : Message) :
    (t.deliver m message).log.filterMap LogEntry.served? = message.topics.filter (t.reaches m) :=
  foldl_deliverTopic_served message.receivedFrom message.topics (r := .nothing t m) h

theorem settled_rejected {p peer : Peer} {n name : String} {tally : Tally} {entry : LogEntry}
    {r : Manager × Except Manager.Error Unit} {e : Manager.Error}
    (logged : .tagRejected peer name e ∈ (settled t p n tally entry r).log) (other : entry ≠ .tagRejected peer name e) :
    p = peer ∧ n = name ∧ r.2 = .error e := by
  obtain ⟨after, e' | _⟩ := r
  · cases List.mem_singleton.mp logged
    exact ⟨rfl, rfl, rfl⟩
  · exact absurd (List.mem_singleton.mp logged).symm other

/-- When a manager rejects what an event asks of it, nothing but the call is left of the event. -/
theorem react_rejected {event : Event} {peer : Peer} {name : String} {e : Manager.Error}
    (logged : .tagRejected peer name e ∈ (t.react m event).log) : (t.react m event).tagger = t ∧
      ∃ call, ((∃ value, call = .tag peer name value) ∨ call = .untag peer name) ∧
        (t.react m event).manager = m.note call := by
  cases event with
  | connect p =>
      simp only [react, connect] at logged ⊢
      split at logged
      · rename_i direct
        obtain ⟨rfl, rfl, refused⟩ := settled_rejected logged fun same => by cases same
        rw [if_pos direct, settled_tagger, settled_manager]
        exact ⟨rfl, _, .inl ⟨_, rfl⟩, Manager.tag_refused refused⟩
      · cases logged
  | graft p topic =>
      simp only [react, graft] at logged ⊢
      obtain ⟨rfl, rfl, refused⟩ := settled_rejected logged fun same => by cases same
      rw [settled_tagger, settled_manager]
      exact ⟨rfl, _, .inl ⟨_, rfl⟩, Manager.tag_refused refused⟩
  | prune p topic =>
      simp only [react, prune] at logged ⊢
      obtain ⟨rfl, rfl, refused⟩ := settled_rejected logged fun same => by cases same
      rw [settled_tagger, settled_manager]
      exact ⟨rfl, _, .inr rfl, Manager.untag_refused refused⟩
  | join topic =>
      simp only [react, join] at logged
      split at logged
      · cases logged
      · split at logged <;> cases List.mem_singleton.mp logged
  | leave topic =>
      simp only [react, leave] at logged
      split at logged
      · cases List.mem_singleton.mp logged
      · cases logged
  | deliver message =>
      have line := List.mem_map_of_mem (f := LogEntry.attempted?) logged
      rw [react, deliver_attempted] at line
      obtain ⟨_, _, same⟩ := List.mem_map.mp line
      cases same
  | _ => cases logged

/-- A join that fails leaves what is tracked and the manager as they were. -/
theorem join_failed {joined topic : String} {e : Manager.Error}
    (logged : .registrationFailed topic e ∈ (t.react m (.join joined)).log) :
    (t.react m (.join joined)).tagger = t ∧ (t.react m (.join joined)).manager = m := by
  simp only [react, join] at logged ⊢
  split at logged
  · cases logged
  · rename_i supports
    rw [if_neg supports]
    split at logged
    · cases List.mem_singleton.mp logged
    · rename_i after e' registered
      have kept := registered.symm.trans (Manager.register_refused (congrArg Prod.snd registered))
      exact ⟨rfl, congrArg Prod.fst kept⟩

end Tagger

namespace Session

/-- The record of a command that sets or clears a tag. -/
def Command.call? : Command → Option Call
  | .tag peer name value => some (.tag peer name value)
  | .untag peer name => some (.untag peer name)
  | _ => none

theorem Answer.ofResult_eq_refused_iff {r : Except Manager.Error Unit} {e : Manager.Error} :
    ofResult r = refused e ↔ r = .error e := by
  cases r <;> simp [ofResult]

namespace World

variable {w : World}

/-- Nothing is different but what is counted. -/
structure UpToCounts (w w' : World) : Prop where
  managers : ∀ i, w'.manager? i = w.manager? i
  observers : w'.observers = w.observers
  handles : w'.handles = w.handles

theorem set_eq_self_of_getElem? {α : Type} {l : List α} {k : Nat} {a : α} (found : l[k]? = some a) : l.set k a = l := by
  obtain ⟨inside, rfl⟩ := List.getElem?_eq_some_iff.mp found
  exact List.set_getElem_self inside

theorem setManager_self {i : Nat} {m : Manager} (seat : w.manager? i = some m) : w.setManager i m = w := by
  obtain ⟨s, found, rfl⟩ := Option.map_eq_some_iff.mp seat
  have none : newHandles i s.manager s.manager = [] := by
    rw [newHandles, Nat.sub_self]
    rfl
  simp only [setManager, found, none, set_eq_self_of_getElem? found, List.append_nil]

/-- Reactions that leave the same tagger and the same manager lead to the same world, counts aside. -/
theorem reacted_upToCounts (w : World) (k j : Nat) {r r' : Tagger.Reaction} (tagger : r'.tagger = r.tagger)
    (manager : r'.manager = r.manager) : (w.reacted k j r).UpToCounts (w.reacted k j r') := by
  constructor <;> simp only [reacted, manager?, tagger, manager, implies_true]

/-- A reaction that leaves the tagger as it is comes to what it does to the manager. -/
theorem setManager_upToCounts_reacted {k j : Nat} {t : Tagger} (found : w.observers[k]? = some (.tagger j t))
    {r : Tagger.Reaction} (tagger : r.tagger = t) : (w.setManager j r.manager).UpToCounts (w.reacted k j r) := by
  constructor <;>
    simp only [reacted, manager?, tagger, set_eq_self_of_getElem? found, observers_setManager, implies_true]

/-- A command to set or clear a tag that is refused is recorded; any other is at most counted as a
probe for decay support. -/
theorem command_refused {i : Nat} {c : Command} {e : Manager.Error} (refused : (w.command i c).answer = .refused e) :
    (∃ m call, w.manager? i = some m ∧ c.call? = some call ∧ (w.command i c).world = w.setManager i (m.note call)) ∨
      c.call? = none ∧ (w.command i c).world = w.probe i := by
  simp only [command] at refused ⊢
  cases seat : w.manager? i with
  | none =>
      rw [seat] at refused
      cases refused
  | some m =>
      rw [seat] at refused
      cases c with
      | tag peer name value =>
          have kept := Manager.tag_refused (Answer.ofResult_eq_refused_iff.mp refused)
          exact .inl ⟨m, _, rfl, rfl, congrArg (w.setManager i) kept⟩
      | untag peer name =>
          have kept := Manager.untag_refused (Answer.ofResult_eq_refused_iff.mp refused)
          exact .inl ⟨m, _, rfl, rfl, congrArg (w.setManager i) kept⟩
      | register name interval decay bump =>
          refine .inr ⟨rfl, ?_⟩
          simp only [register] at refused ⊢
          split at refused
          · cases refused
          · rename_i after e' registered
            have kept := registered.symm.trans (Manager.register_refused (congrArg Prod.snd registered))
            cases congrArg Prod.fst kept
            exact setManager_self ((w.manager?_probe i i).trans seat)
      | _ => cases refused

theorem useHandle_refused {handle : Nat} {use : HandleUse} {e : Manager.Error}
    (refused : (w.useHandle handle use).answer = .refused e) (calm : e ≠ .crossedBounds) :
    (w.useHandle handle use).world = w := by
  simp only [useHandle] at refused ⊢
  split
  · rfl
  · rename_i i number found
    rw [found] at refused
    simp only at refused
    cases seat : w.manager? i with
    | none => rfl
    | some m =>
        rw [seat] at refused
        cases use with
        | bump peer delta =>
            have kept := Manager.bump_refused (Answer.ofResult_eq_refused_iff.mp refused) calm
            exact (congrArg (w.setManager i) kept).trans (setManager_self seat)
        | remove peer =>
            have kept := Manager.remove_refused (Answer.ofResult_eq_refused_iff.mp refused)
            exact (congrArg (w.setManager i) kept).trans (setManager_self seat)
        | close =>
            have kept := Manager.close_refused (Answer.ofResult_eq_refused_iff.mp refused)
            exact (congrArg (w.setManager i) kept).trans (setManager_self seat)
        | name | interval => rfl

theorem Sound.bumpDelivery_failed (h : w.Sound) {k : Nat} {peer : Peer} {topic : String} {e : Tagger.Error}
    (failed : (w.bumpDelivery k peer topic).answer = .notBumped e) : (w.bumpDelivery k peer topic).world = w := by
  simp only [bumpDelivery] at failed ⊢
  split
  · rename_i j t found
    rw [found] at failed
    obtain ⟨m, seat, holds, _⟩ := h k j t found
    simp only [seat] at failed ⊢
    rcases Tagger.bumpDelivery_cases holds peer topic with ⟨_, done, _⟩ | ⟨_, ⟨e', refused⟩, same⟩
    · generalize t.bumpDelivery m peer topic = r at done failed
      obtain ⟨after, _⟩ := r
      cases done
      cases failed
    · generalize t.bumpDelivery m peer topic = r at refused same
      obtain ⟨after, _⟩ := r
      cases refused
      cases same
      exact setManager_self seat
  · rfl

theorem Sound.notify_rejected (h : w.Sound) {k : Nat} {event : Event} {peer : Peer} {name : String} {e : Manager.Error}
    (logged : .tagRejected peer name e ∈ (w.notify event k).2) :
    ∃ j m call, w.manager? j = some m ∧ ((∃ value, call = .tag peer name value) ∨ call = .untag peer name) ∧
      (w.setManager j (m.note call)).UpToCounts (w.notify event k).1 := by
  rcases h.turn event k with ⟨j, t, m, found, seat, _, _, after⟩ | ⟨_, same⟩
  · rw [after] at logged ⊢
    obtain ⟨tagger, call, about, manager⟩ := Tagger.react_rejected logged
    refine ⟨j, m, call, seat, about, ?_⟩
    rw [← manager]
    exact setManager_upToCounts_reacted found tagger
  · rw [same] at logged
    cases logged

theorem Sound.notify_join_failed (h : w.Sound) {k : Nat} {joined topic : String} {e : Manager.Error}
    (logged : .registrationFailed topic e ∈ (w.notify (.join joined) k).2) :
    w.UpToCounts (w.notify (.join joined) k).1 := by
  rcases h.turn (.join joined) k with ⟨j, t, m, found, seat, _, _, after⟩ | ⟨_, same⟩
  · rw [after] at logged ⊢
    obtain ⟨tagger, manager⟩ := Tagger.join_failed logged
    have counted := setManager_upToCounts_reacted found tagger
    rwa [manager, setManager_self seat] at counted
  · rw [same] at logged
    cases logged

theorem notify_of_untagged {event : Event} {k : Nat} (untagged : w.managerOf? k = none) :
    w.notify event k = (w, []) := by
  unfold notify
  split
  · rename_i j t found
    rw [managerOf?_eq_some_iff.mpr ⟨t, found⟩] at untagged
    cases untagged
  · rfl

theorem Sound.notify_tagger (h : w.Sound) {k j : Nat} {t : Tagger}
    (found : w.observers[k]? = some (.tagger j t)) : ∃ m, t.Holds m ∧
      ∀ event, w.notify event k = (w.reacted k j (t.react m event), (t.react m event).log) := by
  obtain ⟨m, seat, holds, _⟩ := h k j t found
  refine ⟨m, holds, fun event => ?_⟩
  simp only [notify, found, seat, observers_setManager, tally_setManager, reacted]

/-- Every topic of a delivery is attempted, and those that fail may as well not be there. -/
theorem Sound.notify_served (h : w.Sound) (k : Nat) (message : Message) :
    (w.managerOf? k ≠ none →
      (w.notify (.deliver message) k).2.map LogEntry.attempted? = message.topics.map some) ∧
    (w.notify (.deliver message) k).1.UpToCounts
      (w.notify (.deliver { message with topics := (w.notify (.deliver message) k).2.filterMap LogEntry.served? }) k).1 := by
  cases placed : w.managerOf? k with
  | none =>
      rw [notify_of_untagged placed, notify_of_untagged placed]
      exact ⟨fun tags => absurd rfl tags, fun i => rfl, rfl, rfl⟩
  | some j =>
      obtain ⟨t, found⟩ := managerOf?_eq_some_iff.mp placed
      obtain ⟨m, holds, turn⟩ := h.notify_tagger found
      rw [turn, turn]
      refine ⟨fun _ => t.deliver_attempted m message, ?_⟩
      have kept (topics : List String) : (t.react m (.deliver { message with topics })).tagger = t :=
        t.react_tagger m (fun _ same => by cases same) fun _ same => by cases same
      refine w.reacted_upToCounts k j ((kept _).trans (kept message.topics).symm) ?_
      have served : (t.react m (.deliver message)).log.filterMap LogEntry.served? = message.topics.filter (t.reaches m) :=
        holds.deliver_served message
      rw [t.react_manager, t.react_manager, served]
      exact holds.run_served message.receivedFrom message.topics

/-- In every state of every session: to set or clear a tag may be refused, and then the call is
recorded and nothing else happens. A registration that is refused, and a bump, a removal or a
closing, changes nothing, and neither does a delivery that is not counted. Of an event at
whose call the manager refuses only the record of that call is left, of a join that fails
only the count. Of a delivery all topics are tried, and it comes to what it comes to with the
topics that fail left out; and all observers have their turns, whatever becomes of the others'. -/
theorem failures_change_nothing_else (kinds : List Kind) (openings : List Opening) (past : List Step) :
    let w := (opened kinds openings).run past
    (∀ i c call e, c.call? = some call → (w.step (.command i c)).answer = .refused e →
      ∃ m, w.manager? i = some m ∧ (w.step (.command i c)).world = w.setManager i (m.note call)) ∧
    (∀ i c e, c.call? = none → (w.step (.command i c)).answer = .refused e →
      (w.step (.command i c)).world = w.probe i ∧ ∀ j, (w.step (.command i c)).world.manager? j = w.manager? j) ∧
    (∀ handle use e, (w.step (.useHandle handle use)).answer = .refused e → e ≠ .crossedBounds →
      (w.step (.useHandle handle use)).world = w) ∧
    (∀ k peer topic e, (w.step (.bumpDelivery k peer topic)).answer = .notBumped e →
      (w.step (.bumpDelivery k peer topic)).world = w) ∧
    (∀ k event peer name e, .tagRejected peer name e ∈ (w.step (.event (.one k) event)).log →
      ∃ j m call, w.manager? j = some m ∧ ((∃ value, call = .tag peer name value) ∨ call = .untag peer name) ∧
        (w.setManager j (m.note call)).UpToCounts (w.step (.event (.one k) event)).world) ∧
    (∀ k joined topic e, .registrationFailed topic e ∈ (w.step (.event (.one k) (.join joined))).log →
      w.UpToCounts (w.step (.event (.one k) (.join joined))).world) ∧
    (∀ k message,
      let o := w.step (.event (.one k) (.deliver message))
      (w.managerOf? k ≠ none → o.log.map LogEntry.attempted? = message.topics.map some) ∧
      o.world.UpToCounts
        (w.step (.event (.one k) (.deliver { message with topics := o.log.filterMap LogEntry.served? }))).world) ∧
    ∀ event, (w.step (.event .all event)).world =
      w.run ((List.range w.observers.length).map fun k => .event (.one k) event) := by
  intro w
  have sound : w.Sound := run_sound (opened_sound kinds openings) past
  refine ⟨fun i c call e about refused => ?_, fun i c e other refused => ?_, fun handle use e => useHandle_refused,
    fun k peer topic e => sound.bumpDelivery_failed, fun k event peer name e => sound.notify_rejected,
    fun k joined topic e => sound.notify_join_failed, sound.notify_served,
    fun event => (w.run_turns_step (.event .all event)).symm⟩
  · rcases command_refused refused with ⟨m, call', seat, about', recorded⟩ | ⟨other, _⟩
    · cases about.symm.trans about'
      exact ⟨m, seat, recorded⟩
    · cases about.symm.trans other
  · rcases command_refused refused with ⟨_, _, _, about, _⟩ | ⟨_, probed⟩
    · cases other.symm.trans about
    · exact ⟨probed, fun j => (congrArg (manager? · j) probed).trans (w.manager?_probe i j)⟩

/-- Of four topics one has had its decaying tag closed and one was never joined: the delivery is as
good as one of the two that are left. -/
theorem closed_and_unknown_topics_left_out :
    let p : Peer := ⟨.identity, [], by decide⟩
    let w := (opened [.decaying] [.tagger 0 .default []]).run
      [.event .all (.join "a"), .event .all (.join "b"), .useHandle 0 .close]
    let o := w.step (.event (.one 0) (.deliver ⟨p, none, ["a", "b", "c", "b"], []⟩))
    o.log.map LogEntry.attempted? = [some "a", some "b", some "c", some "b"] ∧
      o.world.UpToCounts (w.step (.event (.one 0) (.deliver ⟨p, none, ["b", "b"], []⟩))).world ∧
      (w.step (.useHandle 0 (.remove p))).world = w ∧ (w.step (.bumpDelivery 0 p "c")).world = w := by
  intro p w o
  have tags : w.managerOf? 0 ≠ none := by decide +kernel
  have served : o.log.filterMap LogEntry.served? = ["b", "b"] := by decide +kernel
  obtain ⟨_, _, uses, bumps, _, _, deliveries, _⟩ := failures_change_nothing_else [.decaying] [.tagger 0 .default []]
    [.event .all (.join "a"), .event .all (.join "b"), .useHandle 0 .close]
  obtain ⟨attempted, same⟩ := deliveries 0 ⟨p, none, ["a", "b", "c", "b"], []⟩
  refine ⟨attempted tags, ?_, uses 0 (.remove p) (.closed (TagName.delivery "a")) (by decide +kernel) nofun,
    bumps 0 p "c" (.noDecayingTag "c") (by decide +kernel)⟩
  rw [← served]
  exact same

end World
end Session
end PeerTags
