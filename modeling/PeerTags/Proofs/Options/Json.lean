import PeerTags.Proofs.Json.Value
import PeerTags.Proofs.Options.Settings
/-! Options are read back from the JSON text that they are printed as, whatever the direct peers
are spelled with. So a text that is read at all can be replaced by the one that is printed. -/
namespace PeerTags.Options

/-! Members that set different fields. -/

/-- A setting as a member of an object. -/
def Setting.member (s : Setting) : Json.Member := (some s.field.key, s.value)

theorem takeMember_member {s : Setting} {given : List Field} (fresh : s.field ∉ given) (o : Options) :
    takeMember (o, given) s.member = some (o.set s, s.field :: given) := by
  simp [takeMember, Setting.member, fresh, Setting.ofJson?_value]

/-- Each member sets its field, if none of the fields was given before. -/
theorem foldlM_takeMember {settings : List Setting} {given : List Field} (distinct : (settings.map Setting.field).Nodup)
    (fresh : ∀ s ∈ settings, s.field ∉ given) (o : Options) :
    (settings.map Setting.member).foldlM takeMember (o, given) =
      some (settings.foldl set o, (settings.map Setting.field).reverse ++ given) := by
  induction settings generalizing o given with
  | nil => rfl
  | cons s settings ih =>
      obtain ⟨other, distinct⟩ := List.nodup_cons.mp distinct
      have first : s.field ∉ given := fresh s List.mem_cons_self
      have later : ∀ t ∈ settings, t.field ∉ s.field :: given := by
        intro t member again
        obtain same | before := List.mem_cons.mp again
        · exact other (same ▸ List.mem_map_of_mem member)
        · exact fresh t (List.mem_cons_of_mem s member) before
      rw [List.map_cons, List.foldlM_cons, takeMember_member first]
      simpa using ih distinct later (o.set s)

theorem ofMembers?_members {settings : List Setting} (distinct : (settings.map Setting.field).Nodup) :
    ofMembers? (settings.map Setting.member) = some (settings.foldl set default) := by
  have all := foldlM_takeMember distinct (fun s _ => List.not_mem_nil) default
  rw [ofMembers?, all, Option.map_some]

/-! The printed members. -/

/-- The settings that are printed. -/
def settings (o : Options) : List Setting := o.membersJson.map fun m => o.get m.1

theorem settings_eq (o : Options) :
    o.settings = Field.numbers.map o.get ++ o.directPeers.toList.map fun peers => .directPeers (some peers) := by
  cases given : o.directPeers <;> simp [settings, membersJson, get, given] <;> rfl

theorem nodup_settings (o : Options) : (o.settings.map Setting.field).Nodup := by
  have fields : o.settings.map Setting.field = Field.numbers ++ o.directPeers.toList.map fun _ => .directPeers := by
    simp [settings_eq, Function.comp_def]
  rw [fields]
  cases o.directPeers with
  | none => decide
  | some peers => exact (by decide : (Field.numbers ++ [Field.directPeers]).Nodup)

/-- What is not printed is a default. -/
theorem foldl_set_settings (o : Options) : o.settings.foldl set default = o := by
  rw [settings_eq]
  obtain ⟨_, _, _, _, _, _, peers⟩ := o
  cases peers <;> rfl

theorem spaced_peersJson (peers : List String) :
    Json.Spaced (Setting.directPeers (some peers)).value.tokens (peersJson peers) :=
  Json.spaced_array fun p _ => Json.spaced_quote p

/-- What is printed for a field is what it is set to. -/
theorem spaced_membersJson {o : Options} {m : Field × List Char} (member : m ∈ o.membersJson) :
    Json.Spaced (o.get m.1).value.tokens m.2 := by
  obtain number | peers := List.mem_append.mp member
  · simp only [List.mem_cons, List.not_mem_nil, or_false] at number
    obtain rfl | rfl | rfl | rfl | rfl | rfl := number
    case inr.inr.inr.inr.inl =>
      rw [← Text.Decimal.ofInt_natCast]
      exact Json.spaced_ofInt o.decayIntervalSecs.toNat
    all_goals exact Json.spaced_ofInt _
  · obtain ⟨list, given, rfl⟩ := List.mem_map.mp peers
    have known : o.directPeers = some list := Option.mem_toList.mp given
    rw [get, known]
    exact spaced_peersJson list

/-- What is printed is a text of the members. -/
theorem written_toJson (o : Options) : Json.Written o.toJson (.object (o.settings.map Setting.member)) := by
  have members : o.settings.map Setting.member = o.membersJson.map fun m => (some m.1.key, (o.get m.1).value) := by
    simp [settings, Setting.member]
  rw [members, Json.Written, toJson, String.toList_ofList]
  exact Json.spaced_object fun m member => spaced_membersJson member

theorem ofJson?_toJson (o : Options) : ofJson? o.toJson = some o := by
  rw [ofJson?, Json.parse?_of_written o.written_toJson, Option.bind_some, ofValue?,
    ofMembers?_members o.nodup_settings, foldl_set_settings]

/-- Options are read back from what they are printed as. So what is printed for a text that is
read, is printed for itself as well, and gives the same configuration and the same peers. -/
theorem json_round_trip :
    (∀ o : Options, ofJson? o.toJson = some o) ∧
      ∀ (text : String) (o : Options), ofJson? text = some o →
        ∃ again, ofJson? o.toJson = some again ∧ again.toJson = o.toJson ∧
          again.config = o.config ∧ again.peers = o.peers := by
  refine ⟨ofJson?_toJson, ?_⟩
  intro text o _
  exact ⟨o, ofJson?_toJson o, rfl, rfl, rfl⟩

/-- A text with spaces, an unknown key and escapes that nothing needs. -/
def looseText : String :=
  "\x7b \"else\": [1e3, null], \"direct_peers\": [\"\\ud83d\\ude00\\u0007\", \"\\/\"], \"delivery_cap\": -7 \x7d"

theorem json_round_trip_loose :
    ∃ o, ofJson? looseText = some o ∧ o.directPeers = some ["😀\x07", "/"] ∧ o.toJson ≠ looseText ∧
      ∃ again, ofJson? o.toJson = some again ∧ again.toJson = o.toJson ∧
        again.config = o.config ∧ again.peers = o.peers := by
  have read : ofJson? looseText =
      some { default with deliveryCap := ⟨-7, by decide, by decide⟩, directPeers := some ["😀\x07", "/"] } := by
    decide +kernel
  exact ⟨_, read, rfl, by decide +kernel, json_round_trip.2 looseText _ read⟩

end PeerTags.Options
