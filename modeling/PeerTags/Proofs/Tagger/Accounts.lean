import PeerTags.Proofs.Tagger.Reactions
/-! What an event makes a tagger attempt, and what is left of each attempt. A topic of a
delivery is bumped or fails; a tag that is to be set or cleared is, or the call is rejected;
a registration goes through or fails. Each outcome is counted once, each call that the
manager takes notice of is recorded once, and each failure is one warning. -/
namespace PeerTags

/-- Attempts by kind: topics of deliveries to be bumped, tags to be set or cleared directly,
and decaying tags to be registered. -/
@[ext] structure Attempts where
  bumps : Nat
  tags : Nat
  registrations : Nat
deriving DecidableEq

namespace Attempts

def add (a b : Attempts) : Attempts where
  bumps := a.bumps + b.bumps
  tags := a.tags + b.tags
  registrations := a.registrations + b.registrations

instance : Zero Attempts := ⟨⟨0, 0, 0⟩⟩
instance : Add Attempts := ⟨add⟩

/-- Attempts add up in any order. -/
instance : AddCommMonoid Attempts where
  add_assoc a b c := by ext <;> exact add_assoc ..
  zero_add a := by ext <;> exact zero_add _
  add_zero a := by ext <;> exact add_zero _
  add_comm a b := by ext <;> exact add_comm ..
  nsmul := nsmulRec

/-- Deliveries with so many topics between them. -/
def deliveries (topics : Nat) : Attempts := ⟨topics, 0, 0⟩

theorem deliveries_add (a b : Nat) : deliveries a + deliveries b = deliveries (a + b) := rfl

end Attempts

def Call.isBump : Call → Bool
  | .bump .. => true
  | .tag .. | .untag .. | .register .. => false

def LogEntry.isWarning (e : LogEntry) : Bool := decide (e.level = .warn)

/-- The tally has every attempt once, as done or as failed; the records have every call that
sets or clears a tag and every bump that was done; so many registrations went through; and
the log warns of every failure. -/
structure Balanced (tally : Tally) (due : Attempts) (calls : List Call) (registered : Nat) (log : List LogEntry) :
    Prop where
  bumps : tally.deliveryBumps + tally.deliveryBumpFailures = due.bumps
  tags : tally.directTagged + tally.meshTagged + tally.meshUntagged + tally.tagFailures = due.tags
  registrations : tally.registrationFailures + registered = due.registrations
  tagCalls : calls.countP Call.isDirect = due.tags
  bumpCalls : calls.countP Call.isBump = tally.deliveryBumps
  warnings : log.countP LogEntry.isWarning =
    tally.deliveryBumpFailures + tally.registrationFailures + tally.tagFailures

namespace Balanced

variable {tally tally' : Tally} {due due' : Attempts} {calls calls' : List Call} {registered registered' : Nat}
  {log log' : List LogEntry}

theorem nothing : Balanced 0 0 [] 0 [] := ⟨rfl, rfl, rfl, rfl, rfl, rfl⟩

theorem append (h : Balanced tally due calls registered log) (h' : Balanced tally' due' calls' registered' log') :
    Balanced (tally + tally') (due + due') (calls ++ calls') (registered + registered') (log ++ log') := by
  obtain ⟨bumps, tags, registrations, tagCalls, bumpCalls, warnings⟩ := h
  obtain ⟨bumps', tags', registrations', tagCalls', bumpCalls', warnings'⟩ := h'
  have sum : tally + tally' = tally.add tally' := rfl
  have all : due + due' = due.add due' := rfl
  rw [sum, all]
  constructor <;> simp only [Tally.add, Attempts.add, List.countP_append] <;> omega

/-- Of the records only the numbers matter. -/
theorem congr_calls (h : Balanced tally due calls registered log)
    (same : ∀ p : Call → Bool, calls'.countP p = calls.countP p) : Balanced tally due calls' registered log where
  bumps := h.bumps
  tags := h.tags
  registrations := h.registrations
  tagCalls := (same _).trans h.tagCalls
  bumpCalls := (same _).trans h.bumpCalls
  warnings := h.warnings

end Balanced

namespace Tagger

/-- What an event makes a tagger attempt at its manager. -/
def attempts (t : Tagger) (supportsDecay : Bool) : Event → Attempts
  | .connect peer => if t.isDirect peer then ⟨0, 1, 0⟩ else 0
  | .graft _ _ | .prune _ _ => ⟨0, 1, 0⟩
  | .join _ => if supportsDecay then ⟨0, 0, 1⟩ else 0
  | .deliver message => .deliveries message.topics.length
  | .leave _ | .disconnect _ | .validate _ | .reject _ _ | .duplicate _ => 0

/-- With this reaction at a manager the attempts are accounted for. -/
def Reaction.Accounts (r : Reaction) (m : Manager) (due : Attempts) : Prop :=
  ∃ calls registered, r.manager.calls = m.calls ++ calls ∧
    r.manager.issued.length = m.issued.length + registered ∧ Balanced r.tally due calls registered r.log

theorem nothing_accounts (t : Tagger) (m : Manager) : (Reaction.nothing t m).Accounts m 0 :=
  ⟨[], 0, (List.append_nil _).symm, rfl, .nothing⟩

theorem Reaction.Accounts.andThen {r : Reaction} {m : Manager} {due due' : Attempts} (h : r.Accounts m due)
    {next : Tagger → Manager → Reaction} (h' : (next r.tagger r.manager).Accounts r.manager due') :
    (r.andThen next).Accounts m (due + due') := by
  obtain ⟨calls, registered, recorded, issued, balanced⟩ := h
  obtain ⟨calls', registered', recorded', issued', balanced'⟩ := h'
  refine ⟨calls ++ calls', registered + registered', ?_, ?_, balanced.append balanced'⟩
  · rw [← List.append_assoc, ← recorded]
    exact recorded'
  · rw [← Nat.add_assoc, ← issued]
    exact issued'

/-- A call that sets or clears a tag is recorded, and it counts as what it is for or as a failure. -/
theorem settled_accounts {t : Tagger} {peer : Peer} {tag : String} {tally : Tally} {entry : LogEntry} {m : Manager}
    {r : Manager × Except Manager.Error Unit} {call : Call} (recorded : r.1.calls = m.calls ++ [call])
    (same : m.SameHandles r.1) (direct : call.isDirect = true) (done : Balanced tally ⟨0, 1, 0⟩ [call] 0 [entry]) :
    (settled t peer tag tally entry r).Accounts m ⟨0, 1, 0⟩ := by
  obtain ⟨after, e | _⟩ := r
  · refine ⟨[call], 0, recorded, same.length_issued, rfl, rfl, rfl, ?_, ?_, rfl⟩
    · exact (List.countP_singleton ..).trans (if_pos direct)
    · exact done.bumpCalls.trans (Nat.eq_zero_of_add_eq_zero_right done.bumps)
  · exact ⟨[call], 0, recorded, same.length_issued, done⟩

theorem join_accounts (t : Tagger) (m : Manager) (topic : String) (alike : t.supportsDecay = m.supportsDecay) :
    (t.join m topic).Accounts m (if m.supportsDecay then ⟨0, 0, 1⟩ else 0) := by
  rw [← alike]
  cases supports : t.supportsDecay with
  | false =>
      simp only [join, supports, Bool.not_false, if_true, Bool.false_eq_true, if_false]
      exact nothing_accounts t m
  | true =>
      simp only [join, supports, Bool.not_true, Bool.false_eq_true, if_false, if_true]
      cases admitted : m.admits (TagName.delivery topic) with
      | true =>
          rw [Manager.register_of_admitted admitted]
          exact ⟨_, 1, rfl, List.length_append, rfl, rfl, rfl, rfl, rfl, rfl⟩
      | false =>
          obtain ⟨e, refused⟩ := Manager.register_of_not_admitted admitted t.config.decayInterval
            (.fixed t.config.decayAmount) (.capped t.config.deliveryCap)
          rw [refused]
          exact ⟨[], 0, (List.append_nil _).symm, rfl, rfl, rfl, rfl, rfl, rfl, rfl⟩

theorem deliverTopic_accounts {t : Tagger} {m : Manager} (h : t.Holds m) (peer : Peer) (topic : String) :
    (deliverTopic peer topic t m).Accounts m (.deliveries 1) := by
  have issued : (t.bumpDelivery m peer topic).1.issued.length = m.issued.length := by
    rw [bumpDelivery_fst]
    exact (t.bumpRequest_sameHandles m peer topic).length_issued
  unfold deliverTopic
  rcases bumpDelivery_cases h peer topic with ⟨_, done, recorded⟩ | ⟨_, ⟨e, failed⟩, same⟩
  · generalize t.bumpDelivery m peer topic = r at issued done recorded
    obtain ⟨after, _⟩ := r
    cases done
    exact ⟨_, 0, recorded, issued, rfl, rfl, rfl, rfl, rfl, rfl⟩
  · generalize t.bumpDelivery m peer topic = r at failed same
    obtain ⟨after, _⟩ := r
    cases failed
    cases same
    exact ⟨[], 0, (List.append_nil _).symm, rfl, rfl, rfl, rfl, rfl, rfl, rfl⟩

theorem foldl_deliverTopic_accounts (peer : Peer) (topics : List String) {r : Reaction} {m : Manager} {due : Attempts}
    (holds : r.tagger.Holds r.manager) (h : r.Accounts m due) :
    (topics.foldl (fun r topic => r.andThen (deliverTopic peer topic)) r).Accounts m
      (due + .deliveries topics.length) := by
  induction topics generalizing r due with
  | nil => exact h
  | cons topic topics ih =>
      have tagger : (r.andThen (deliverTopic peer topic)).tagger = r.tagger :=
        deliverTopic_tagger peer topic r.tagger r.manager
      have manager : (r.andThen (deliverTopic peer topic)).manager =
          r.manager.run (r.tagger.bumpRequest peer topic) := deliverTopic_manager peer topic r.tagger r.manager
      have later : (r.andThen (deliverTopic peer topic)).tagger.Holds (r.andThen (deliverTopic peer topic)).manager := by
        rw [tagger, manager]
        exact holds.run _
      have rest := ih later (h.andThen (deliverTopic_accounts holds peer topic))
      rwa [add_assoc, Attempts.deliveries_add, Nat.add_comm, ← List.length_cons] at rest

/-- Every attempt of a reaction is accounted for. -/
theorem react_accounts {t : Tagger} {m : Manager} (h : t.Holds m) (alike : t.supportsDecay = m.supportsDecay)
    (e : Event) : (t.react m e).Accounts m (t.attempts m.supportsDecay e) := by
  cases e with
  | connect peer =>
      simp only [react, connect, attempts]
      split
      · exact settled_accounts
          (m.act_calls (a := .tag peer TagName.direct t.config.directPeerValue) (by intro same; cases same))
          (m.tag_sameHandles ..) rfl ⟨rfl, rfl, rfl, rfl, rfl, rfl⟩
      · exact nothing_accounts t m
  | graft peer topic =>
      exact settled_accounts
        (m.act_calls (a := .tag peer (TagName.mesh topic) t.config.meshPeerValue) (by intro same; cases same))
        (m.tag_sameHandles ..) rfl ⟨rfl, rfl, rfl, rfl, rfl, rfl⟩
  | prune peer topic =>
      exact settled_accounts (m.act_calls (a := .untag peer (TagName.mesh topic)) (by intro same; cases same))
        (m.untag_sameHandles ..) rfl ⟨rfl, rfl, rfl, rfl, rfl, rfl⟩
  | join topic => exact t.join_accounts m topic alike
  | leave topic =>
      simp only [react, leave, attempts]
      split
      · exact ⟨[], 0, (List.append_nil _).symm, rfl, rfl, rfl, rfl, rfl, rfl, rfl⟩
      · exact nothing_accounts t m
  | deliver message =>
      have all := foldl_deliverTopic_accounts message.receivedFrom message.topics h (nothing_accounts t m)
      rwa [zero_add] at all
  | _ => exact nothing_accounts t m

end Tagger
end PeerTags
