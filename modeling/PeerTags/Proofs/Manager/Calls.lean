import PeerTags.Proofs.Manager.Registry
/-! What a manager remembers of being asked. A call to set or clear a tag is
recorded whatever comes of it; a registration or a bump only when it goes
through. Nothing else is recorded, and nothing that was is lost. -/
namespace PeerTags
namespace Manager

/-- The calls that an action adds to the record. -/
def noted (m : Manager) : Action → List Call
  | .tag peer name value => [.tag peer name value]
  | .untag peer name => [.untag peer name]
  | .register name interval _ _ => if m.admits name then [.register name interval] else []
  | .bump number peer delta =>
    match m.openTag number with
    | .ok d => [.bump peer d.name delta]
    | .error _ => []
  | .remove .. | .close .. | .advance .. | .rejectTags .. | .rejectRegistrations .. | .clearCalls => []

theorem bump_calls (m : Manager) (number : Nat) (peer : Peer) (delta : Amount) :
    (m.bump number peer delta).1.calls = m.calls ++ m.noted (.bump number peer delta) := by
  cases found : m.openTag number with
  | error e => simp only [bump_of_error found, noted, found, List.append_nil]
  | ok d =>
      simp only [bump, noted, found]
      split <;> rfl

theorem remove_calls (m : Manager) (number : Nat) (peer : Peer) : (m.remove number peer).1.calls = m.calls := by
  cases found : m.openTag number with
  | error e => rw [remove_of_error found]
  | ok d =>
      simp only [remove, found]
      rfl

theorem decayStep_calls (m : Manager) (number : Nat) : (m.decayStep number).1.calls = m.calls := by
  cases found : m.openTag number with
  | error e => rw [decayStep_of_error found]
  | ok d =>
      obtain ⟨tags, only⟩ := foldl_only_tags (settle_only_tags d) d.values.entries m
      simp only [decayStep, found, only]
      rfl

theorem act_calls (m : Manager) {a : Action} (kept : a ≠ .clearCalls) : (m.act a).calls = m.calls ++ m.noted a := by
  cases a with
  | tag peer name value => simp only [act, tag_eq]; split <;> rfl
  | untag peer name => simp only [act, untag_eq]; split <;> rfl
  | register name interval decay bump =>
      cases admitted : m.admits name with
      | true => simp only [act, noted, register_of_admitted admitted, admitted, if_true]
      | false =>
          obtain ⟨e, refused⟩ := register_of_not_admitted admitted interval decay bump
          simp [act, noted, refused, admitted]
  | bump number peer delta => exact bump_calls m number peer delta
  | remove number peer => exact (remove_calls m number peer).trans (List.append_nil _).symm
  | close number =>
      refine Eq.trans ?_ (List.append_nil _).symm
      cases found : m.openTag number with
      | error e => rw [act, close_of_error found]
      | ok d =>
          obtain ⟨tags, closed⟩ := close_of_ok found
          rw [act, closed]
  | advance intervals =>
      refine Eq.trans ?_ (List.append_nil _).symm
      exact advance_induction (P := fun n => n.calls = m.calls)
        (fun n number same => (decayStep_calls n number).trans same) rfl intervals
  | rejectTags on => exact (List.append_nil _).symm
  | rejectRegistrations on => exact (List.append_nil _).symm
  | clearCalls => exact absurd rfl kept

end Manager

/-- A tag was to be set or cleared directly. -/
def Call.isDirect : Call → Bool
  | .tag .. | .untag .. => true
  | .register .. | .bump .. => false

/-- The call by which an action sets or clears a tag directly. -/
def Manager.Action.direct : Action → List Call
  | .tag peer name value => [.tag peer name value]
  | .untag peer name => [.untag peer name]
  | _ => []

namespace Manager

theorem noted_direct (m : Manager) (a : Action) : (m.noted a).filter Call.isDirect = a.direct := by
  cases a with
  | register name interval decay bump =>
      simp only [noted, Action.direct]
      split <;> rfl
  | bump number peer delta =>
      simp only [noted, Action.direct]
      split <;> rfl
  | _ => rfl

/-- Which direct calls are recorded does not depend on the manager. -/
theorem run_direct_calls (m : Manager) {actions : List Action} (kept : .clearCalls ∉ actions) :
    (m.run actions).calls.filter Call.isDirect =
      m.calls.filter Call.isDirect ++ actions.flatMap Action.direct := by
  induction actions generalizing m with
  | nil => exact (List.append_nil _).symm
  | cons a actions ih =>
      obtain ⟨first, later⟩ := not_or.mp fun either => kept (List.mem_cons.mpr either)
      rw [run_cons, ih (m.act a) later, act_calls m (Ne.symm first), List.filter_append, noted_direct,
        List.flatMap_cons, List.append_assoc]

/-- What neither registers nor uses a decaying tag records direct calls only. -/
theorem run_calls_isDirect {m : Manager} (h : ∀ c ∈ m.calls, c.isDirect = true) {actions : List Action}
    (plain : ∀ a ∈ actions, a ≠ .clearCalls ∧ a.registered? = none ∧ a.number? = none) :
    ∀ c ∈ (m.run actions).calls, c.isDirect = true := by
  induction actions generalizing m with
  | nil => exact h
  | cons a actions ih =>
      obtain ⟨kept, new, unused⟩ := plain a List.mem_cons_self
      refine ih (fun c member => ?_) fun b later => plain b (List.mem_cons_of_mem a later)
      rw [act_calls m kept, List.mem_append] at member
      rcases member with before | added
      · exact h c before
      · cases a with
        | tag peer name value => cases List.mem_singleton.mp added; rfl
        | untag peer name => cases List.mem_singleton.mp added; rfl
        | register name interval decay bump => cases new
        | bump number peer delta => cases unused
        | _ => cases added

end Manager
end PeerTags
