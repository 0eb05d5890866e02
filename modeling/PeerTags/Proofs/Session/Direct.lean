import PeerTags.Proofs.Session.Solo
/-! The tag of direct peers in a session of one tagger. Connecting sets it, but its
name is also that of the mesh tag of the topic `direct`, so that grafts and prunes of
this topic write it too. The last of these events decides. -/
namespace PeerTags.Session.Solo

/-- The peer is a direct one and has connected. -/
def DirectConnected (direct : List Peer) (peer : Peer) (events : List Event) : Prop :=
  peer ∈ direct ∧ .connect peer ∈ events

instance (direct : List Peer) (peer : Peer) (events : List Event) : Decidable (DirectConnected direct peer events) :=
  inferInstanceAs (Decidable (_ ∧ _))

/-- What the tag of direct peers is meant to be. -/
def directValue (config : Config) (direct : List Peer) (peer : Peer) (events : List Event) : Option Amount :=
  if DirectConnected direct peer events then some config.directPeerValue else none

/-- When the topic `direct` does no harm. After a graft the peer has to be a direct one that
has connected, and the two tags of one value; after a prune it must not be such a peer. -/
def Unharmed (config : Config) (direct : List Peer) (peer : Peer) (events : List Event) : Prop :=
  match last direct peer "direct" events with
  | some (.graft _ _) => DirectConnected direct peer events ∧ config.meshPeerValue = config.directPeerValue
  | some (.prune _ _) => ¬ DirectConnected direct peer events
  | _ => True

theorem accepted_events (events : List Event) : accepted false (events.map .event) = events := by
  induction events with
  | nil => rfl
  | cons e events ih =>
      rw [List.map_cons, accepted, ih]
      rfl

theorem shown_eq_directValue_iff (config : Config) (direct : List Peer) (peer : Peer) (events : List Event) :
    (last direct peer "direct" events).bind (shown config) = directValue config direct peer events ↔
      Unharmed config direct peer events := by
  unfold Unharmed directValue
  cases ended : last direct peer "direct" events with
  | none =>
      have apart : ¬ DirectConnected direct peer events := fun connected => by
        obtain ⟨e, found⟩ := last_of_connect connected.1 connected.2
        rw [ended] at found
        cases found
      simp [apart]
  | some e =>
      obtain ⟨member, concerned⟩ := last_mem ended
      cases e with
      | connect p =>
          obtain ⟨rfl, _, direct⟩ : peer = p ∧ "direct" = "direct" ∧ p ∈ direct := by
            simpa only [concerns, decide_eq_true_eq] using concerned
          simp [shown, DirectConnected, direct, member]
      | graft p t => by_cases connected : DirectConnected direct peer events <;> simp [shown, connected]
      | prune p t => by_cases connected : DirectConnected direct peer events <;> simp [shown, connected]
      | _ => cases concerned

/-- After any events the tag of direct peers is what the last of the events that write it
has left. It is what it is meant to be just when the topic `direct` does no harm, and the
events that do not write it, among them the grafts and prunes of all other topics, leave
it as it is. -/
theorem direct_tag_follows_last_event {config : Config} (checked : config.check = .ok ()) (direct : List Peer)
    (events : List Event) :
    let w := (World.solo config direct).run (events.map (.event (.one 0)))
    ∃ m, w.manager? 0 = some m ∧ ∀ peer,
      m.tagValue peer TagName.direct = (last direct peer "direct" events).bind (shown config) ∧
      (m.tagValue peer TagName.direct = directValue config direct peer events ↔
        Unharmed config direct peer events) ∧
      ∀ e, concerns direct peer "direct" e = false →
        ((w.step (.event (.one 0) e)).world.manager? 0).map (·.tagValue peer TagName.direct) =
          some (m.tagValue peer TagName.direct) := by
  intro w
  have valid : config.Valid := Config.check_eq_ok_iff.mp checked
  have value (later : List Event) (peer : Peer) :
      ((start config valid direct).run (later.map .event)).manager.tagValue peer TagName.direct =
        (last direct peer "direct" later).bind (shown config) := by
    rw [← TagName.mesh_direct, start_tagValue, accepted_events]
  have shows (later : List Event) : ((start config valid direct).run (later.map .event)).ShownBy
      ((World.solo config direct).run (later.map (.event (.one 0)))) := by
    have runs := (start_shownBy valid direct).run (later.map .event)
    rwa [List.map_map] at runs
  refine ⟨_, (shows events).1, fun peer => ⟨value events peer, ?_, fun e silent => ?_⟩⟩
  · rw [value]
    exact shown_eq_directValue_iff config direct peer events
  · have next : (w.step (.event (.one 0) e)).world =
        (World.solo config direct).run ((events ++ [e]).map (.event (.one 0))) := by
      rw [List.map_append, World.run, List.foldl_append]
      rfl
    have same : last direct peer "direct" (events ++ [e]) = last direct peer "direct" events := by
      rw [last, List.filter_append, List.filter_singleton, silent, cond_false, List.append_nil, last]
    rw [next, (shows (events ++ [e])).1, Option.map_some, value, value, same]

/-- A connected direct peer is grafted and takes the value of a mesh peer. -/
theorem grafted_direct_peer_shows_mesh_value :
    let p : Peer := ⟨.identity, [], by decide⟩
    let w := (World.solo .default [p]).run ([.connect p, .graft p "direct"].map (.event (.one 0)))
    ∃ m, w.manager? 0 = some m ∧ m.tagValue p TagName.direct = some 20 ∧
      m.tagValue p TagName.direct ≠ directValue .default [p] p [.connect p, .graft p "direct"] := by
  intro p w
  have checked : Config.check .default = .ok () := by decide +kernel
  obtain ⟨m, found, all⟩ := direct_tag_follows_last_event checked [p] [.connect p, .graft p "direct"]
  obtain ⟨value, kept, _⟩ := all p
  refine ⟨m, found, value.trans (by decide +kernel), fun same => ?_⟩
  have equal : Config.default.meshPeerValue = Config.default.directPeerValue := (kept.mp same).2
  exact absurd equal (by decide +kernel)

/-- A prune of the topic takes the tag off a connected direct peer. -/
theorem not_direct_tag_kept : ¬ ∀ (config : Config) (direct : List Peer) (events : List Event) (peer : Peer),
    config.check = .ok () →
      (((World.solo config direct).run (events.map (.event (.one 0)))).manager? 0).map
        (·.tagValue peer TagName.direct) = some (directValue config direct peer events) := by
  intro kept
  have value := kept .default [⟨.identity, [], by decide⟩]
    [.connect ⟨.identity, [], by decide⟩, .prune ⟨.identity, [], by decide⟩ "direct"] ⟨.identity, [], by decide⟩
    (by decide +kernel)
  revert value
  decide +kernel

end PeerTags.Session.Solo
