import PeerTags.Proofs.Session.Delivery
/-! Everything that a session of one tagger leaves on a peer, told from its inputs:
the tag of direct peers, a mesh tag for each topic that the peer was last grafted to,
and the scores of its deliveries. -/
namespace PeerTags.Session.Solo

/-- The last graft or prune of a peer in a topic's mesh. -/
def lastInMesh (peer : Peer) (topic : String) (events : List Event) : Option Event :=
  (events.filter fun e => e = .graft peer topic ∨ e = .prune peer topic).getLast?

theorem mem_of_lastInMesh {peer : Peer} {topic : String} {events : List Event} {e : Event}
    (last : lastInMesh peer topic events = some e) : e ∈ events :=
  (List.mem_filter.mp (List.mem_of_getLast? last)).1

/-- The tags that the inputs of a session give a peer. -/
inductive Expected (config : Config) (direct : List Peer) (inputs : List Input) (peer : Peer) :
    String → Int → Prop where
  | direct (member : peer ∈ direct) (connected : .connect peer ∈ accepted false inputs) :
    Expected config direct inputs peer TagName.direct config.directPeerValue.toInt
  | mesh (topic : String) (grafted : lastInMesh peer topic (accepted false inputs) = some (.graft peer topic)) :
    Expected config direct inputs peer (TagName.mesh topic) config.meshPeerValue.toInt
  | delivery (topic : String) (score : Int) (scored : (Delivery.run config peer topic inputs).score = some score) :
    Expected config direct inputs peer (TagName.delivery topic) score

theorem mem_accepted {rejected : Bool} {inputs : List Input} {e : Event} (h : e ∈ accepted rejected inputs) :
    .event e ∈ inputs := by
  induction inputs generalizing rejected with
  | nil => cases h
  | cons input inputs ih =>
      cases input with
      | event e' =>
          rw [accepted] at h
          split at h
          · exact List.mem_cons_of_mem _ (ih h)
          · rcases List.mem_cons.mp h with rfl | later
            · exact List.mem_cons_self
            · exact List.mem_cons_of_mem _ (ih later)
      | _ => exact List.mem_cons_of_mem _ (ih h)

theorem last_eq_lastInMesh (direct : List Peer) (peer : Peer) {topic : String} (other : topic ≠ "direct")
    (events : List Event) : last direct peer topic events = lastInMesh peer topic events := by
  rw [last, lastInMesh]
  congr 1
  apply List.filter_congr
  intro e _
  cases e with
  | connect p => simp [concerns, other]
  | graft p t => simp [concerns, eq_comm]
  | prune p t => simp [concerns, eq_comm]
  | _ => simp [concerns]

theorem tagValue_other {config : Config} (valid : config.Valid) (direct : List Peer) (inputs : List Input)
    (peer : Peer) {name : String} (mesh : ∀ topic, name ≠ TagName.mesh topic)
    (delivery : ∀ topic, name ≠ TagName.delivery topic) :
    ((start config valid direct).run inputs).manager.tagValue peer name = none := by
  have silent : ∀ e ∈ accepted false inputs, write? config direct peer name e = none :=
    fun e _ => write?_other config direct peer mesh e
  have value := (start_steady valid direct).tagValue_run delivery peer inputs
  rw [latest_eq] at value
  refine value.trans ?_
  have rejects : (start config valid direct).manager.rejectsTags = false := rfl
  rw [rejects, List.filterMap_eq_nil_iff.mpr silent]
  rfl

section

variable {config : Config} (valid : config.Valid) (direct : List Peer) {inputs : List Input}
  (untouched : ∀ peer, .event (.graft peer "direct") ∉ inputs ∧ .event (.prune peer "direct") ∉ inputs)

include untouched

theorem tagValue_direct_iff (peer : Peer) (value : Amount) :
    ((start config valid direct).run inputs).manager.tagValue peer TagName.direct = some value ↔
      peer ∈ direct ∧ .connect peer ∈ accepted false inputs ∧ value = config.directPeerValue := by
  rw [← TagName.mesh_direct, start_tagValue]
  have connects {e : Event} (ended : last direct peer "direct" (accepted false inputs) = some e) :
      peer ∈ direct ∧ .connect peer ∈ accepted false inputs ∧ e = .connect peer := by
    obtain ⟨member, concerned⟩ := last_mem ended
    cases e with
    | connect p =>
        obtain ⟨rfl, _, listed⟩ : peer = p ∧ "direct" = "direct" ∧ p ∈ direct := by
          simpa only [concerns, decide_eq_true_eq] using concerned
        exact ⟨listed, member, rfl⟩
    | graft p t =>
        obtain ⟨rfl, rfl⟩ : peer = p ∧ "direct" = t := by
          simpa only [concerns, decide_eq_true_eq] using concerned
        exact absurd (mem_accepted member) (untouched peer).1
    | prune p t =>
        obtain ⟨rfl, rfl⟩ : peer = p ∧ "direct" = t := by
          simpa only [concerns, decide_eq_true_eq] using concerned
        exact absurd (mem_accepted member) (untouched peer).2
    | _ => cases concerned
  constructor
  · intro shows
    obtain ⟨e, ended, left⟩ := Option.bind_eq_some_iff.mp shows
    obtain ⟨listed, connected, rfl⟩ := connects ended
    cases left
    exact ⟨listed, connected, rfl⟩
  · rintro ⟨listed, connected, rfl⟩
    obtain ⟨e, ended⟩ := last_of_connect listed connected
    obtain ⟨_, _, rfl⟩ := connects ended
    rw [ended]
    rfl

theorem tagValue_mesh_iff (peer : Peer) {topic : String} (value : Amount) :
    topic ≠ "direct" ∧
        ((start config valid direct).run inputs).manager.tagValue peer (TagName.mesh topic) = some value ↔
      lastInMesh peer topic (accepted false inputs) = some (.graft peer topic) ∧ value = config.meshPeerValue := by
  constructor
  · rintro ⟨other, shows⟩
    rw [start_tagValue] at shows
    obtain ⟨e, ended, left⟩ := Option.bind_eq_some_iff.mp shows
    obtain ⟨member, concerned⟩ := last_mem ended
    rw [last_eq_lastInMesh direct peer other] at ended
    cases e with
    | graft p t =>
        obtain ⟨rfl, rfl⟩ : peer = p ∧ topic = t := by
          simpa only [concerns, decide_eq_true_eq] using concerned
        cases left
        exact ⟨ended, rfl⟩
    | connect p => simp [concerns, other] at concerned
    | _ => cases left
  · rintro ⟨grafted, rfl⟩
    have member := mem_of_lastInMesh grafted
    have other : topic ≠ "direct" := by
      rintro rfl
      exact (untouched peer).1 (mem_accepted member)
    refine ⟨other, ?_⟩
    rw [start_tagValue, last_eq_lastInMesh direct peer other, grafted]
    rfl

theorem tagValue_iff_expected (peer : Peer) (name : String) (value : Int) :
    (∃ v, ((start config valid direct).run inputs).manager.tagValue peer name = some v ∧ v.toInt = value) ↔
      Expected config direct inputs peer name value := by
  have scores (topic : String) :
      score ((start config valid direct).run inputs).manager peer topic =
        (Delivery.run config peer topic inputs).score :=
    congrArg Delivery.score (start_delivery_run valid direct peer topic inputs)
  constructor
  · rintro ⟨v, shows, rfl⟩
    by_cases delivery : ∃ topic, name = TagName.delivery topic
    · obtain ⟨topic, rfl⟩ := delivery
      refine .delivery topic v.toInt ?_
      rw [← scores, score, shows, Option.map_some]
    · by_cases mesh : ∃ topic, name = TagName.mesh topic
      · obtain ⟨topic, rfl⟩ := mesh
        by_cases shared : topic = "direct"
        · rw [shared, TagName.mesh_direct] at shows ⊢
          obtain ⟨member, connected, rfl⟩ := (tagValue_direct_iff valid direct untouched peer v).mp shows
          exact .direct member connected
        · obtain ⟨grafted, rfl⟩ := (tagValue_mesh_iff valid direct untouched peer v).mp ⟨shared, shows⟩
          exact .mesh topic grafted
      · rw [tagValue_other valid direct inputs peer (fun topic same => mesh ⟨topic, same⟩)
          fun topic same => delivery ⟨topic, same⟩] at shows
        cases shows
  · intro expected
    cases expected with
    | direct member connected =>
        exact ⟨_, (tagValue_direct_iff valid direct untouched peer _).mpr ⟨member, connected, rfl⟩, rfl⟩
    | mesh topic grafted =>
        exact ⟨_, ((tagValue_mesh_iff valid direct untouched peer _).mpr ⟨grafted, rfl⟩).2, rfl⟩
    | delivery topic points scored =>
        rw [← scores] at scored
        exact Option.map_eq_some_iff.mp scored

end

/-- Whatever a session of one tagger does, short of grafts and prunes in the topic that
shares its mesh tag with direct peers: it tracks the topics that its inputs say, and
the tags of each peer, in the order of their names, are those that its inputs give it. -/
theorem run_peerTags {config : Config} (checked : config.check = .ok ()) (direct : List Peer) {inputs : List Input}
    (untouched : ∀ peer, .event (.graft peer "direct") ∉ inputs ∧ .event (.prune peer "direct") ∉ inputs) :
    let w := (World.solo config direct).run (inputs.map Input.step)
    ∃ t m, w.tagger? 0 = some t ∧ w.manager? 0 = some m ∧ ∀ peer,
      (∀ topic, t.isTracking topic = true ↔ (Delivery.run config peer topic inputs).standing = .tracked) ∧
      (m.peerTags peer).Pairwise (fun a b => a.1 < b.1) ∧
      ∀ name value, (name, value) ∈ (m.peerTags peer).map (fun e => (e.1, e.2.toInt)) ↔
        Expected config direct inputs peer name value := by
  intro w
  have valid : config.Valid := Config.check_eq_ok_iff.mp checked
  obtain ⟨seat, observer⟩ := (start_shownBy valid direct).run inputs
  refine ⟨_, _, by rw [World.tagger?, observer], seat, fun peer => ⟨fun topic => ?_, ?_, fun name value => ?_⟩⟩
  · rw [← standing_tracked _ peer topic, start_delivery_run]
  · exact Manager.peerTags_pairwise _ peer
  · rw [← tagValue_iff_expected valid direct untouched peer name value]
    simp only [List.mem_map, Prod.exists, Prod.mk.injEq]
    constructor
    · rintro ⟨n, v, member, rfl, rfl⟩
      exact ⟨v, Manager.mem_peerTags_iff.mp member, rfl⟩
    · rintro ⟨v, shows, rfl⟩
      exact ⟨name, v, Manager.mem_peerTags_iff.mpr shows, rfl, rfl⟩

/-- A connection that was rejected at first, a mesh that was left, and a delivery tag that
decays on after its topic was left and could not be joined again. -/
theorem orphaned_delivery_tag_decays :
    let p : Peer := ⟨.identity, [], by decide⟩
    let inputs : List Input :=
      [.rejectTags true, .event (.connect p), .rejectTags false, .event (.connect p), .event (.graft p "b"),
        .event (.join "a"), .event (.deliver ⟨p, none, ["a", "b", "a", "a"], []⟩), .event (.prune p "b"),
        .event (.leave "a"), .event (.join "a"), .event (.deliver ⟨p, none, ["a"], []⟩), .advance 2]
    let w := (World.solo .default [p]).run (inputs.map Input.step)
    ∃ m, w.manager? 0 = some m ∧
      (TagName.direct, 1000) ∈ (m.peerTags p).map (fun e => (e.1, e.2.toInt)) ∧
      (TagName.delivery "a", 1) ∈ (m.peerTags p).map (fun e => (e.1, e.2.toInt)) := by
  intro p inputs w
  have untouched : ∀ peer, .event (.graft peer "direct") ∉ inputs ∧ .event (.prune peer "direct") ∉ inputs := by
    intro peer
    simp [inputs]
  have checked : Config.check .default = .ok () := by decide +kernel
  obtain ⟨_, m, _, found, all⟩ := run_peerTags checked [p] untouched
  obtain ⟨_, _, exactly⟩ := all p
  refine ⟨m, found, (exactly _ _).mpr (.direct List.mem_cons_self (by decide +kernel)), ?_⟩
  exact (exactly _ _).mpr (.delivery "a" 1 (by decide +kernel))

end PeerTags.Session.Solo
