import PeerTags.Options.FromJson
import PeerTags.Proofs.Text.Decimal
/-! Options field by field. Options are the settings of their fields; to set a field changes that
field and no other. -/
namespace PeerTags.Options

/-- The fields that hold a number. -/
def Field.numbers : List Field := all.filter (· ≠ directPeers)

theorem Field.mem_numbers {f : Field} : f ∈ numbers ↔ f ≠ directPeers := by
  simp [numbers, mem_all]

namespace Setting

def field : Setting → Field
  | directPeerValue _ => .directPeerValue
  | meshPeerValue _ => .meshPeerValue
  | deliveryBump _ => .deliveryBump
  | deliveryCap _ => .deliveryCap
  | decayIntervalSecs _ => .decayIntervalSecs
  | decayAmount _ => .decayAmount
  | directPeers _ => .directPeers

@[simp] theorem field_directPeers (peers : Option (List String)) : (directPeers peers).field = .directPeers := rfl

theorem number_or_peers (s : Setting) : s.field ≠ .directPeers ∨ ∃ peers, s = directPeers peers := by
  cases s with
  | directPeers peers => exact .inr ⟨peers, rfl⟩
  | _ => exact .inl Field.noConfusion

/-- What a number field is set to. -/
def int? : Setting → Option Int
  | directPeerValue value => some value.toInt
  | meshPeerValue value => some value.toInt
  | deliveryBump value => some value.toInt
  | deliveryCap value => some value.toInt
  | decayIntervalSecs secs => some secs.toNat
  | decayAmount value => some value.toInt
  | directPeers _ => none

/-- The number is in the field's range. -/
theorem ofInt?_int? {s : Setting} (number : s.field ≠ .directPeers) : s.int?.bind (ofInt? s.field) = some s := by
  cases s with
  | decayIntervalSecs secs =>
      have small : secs.toNat < 18446744073709551616 := secs.toNat_lt
      rw [int?, Option.bind_some, field, ofInt?, if_pos ⟨by omega, by omega⟩]
      simp
  | directPeers peers => contradiction
  | _ value => simp [int?, field, ofInt?, Amount.ofInt?_eq_some_iff]

theorem of_ofInt? {f : Field} {i : Int} {s : Setting} (made : ofInt? f i = some s) : s.field = f ∧ s.int? = some i := by
  cases f with
  | directPeers => cases made
  | decayIntervalSecs =>
      simp only [ofInt?] at made
      split at made
      · rename_i range
        cases made
        have kept : (UInt64.ofNat i.toNat).toNat = i.toNat := by
          rw [UInt64.toNat_ofNat', Nat.mod_eq_of_lt (by omega)]
        exact ⟨rfl, by rw [int?, kept, Int.toNat_of_nonneg range.1]⟩
      · cases made
  | _ =>
      obtain ⟨_, same, rfl⟩ := Option.map_eq_some_iff.mp made
      exact ⟨rfl, congrArg some (Amount.ofInt?_eq_some_iff.mp same).symm⟩

/-- What a field is set to, as a JSON value. -/
def value : Setting → Json
  | directPeers none => .null
  | directPeers (some peers) => .array (peers.map fun p => .string (some p))
  | s => .number s.int?

theorem mapM_stringItem? (peers : List String) :
    (peers.map fun p => Json.string (some p)).mapM stringItem? = some peers :=
  mapM_map_of_inverse fun _ _ => rfl

theorem value_number {s : Setting} (number : s.field ≠ .directPeers) : s.value = .number s.int? := by
  cases s with
  | directPeers peers => contradiction
  | _ => rfl

theorem ofJson?_number (f : Field) (i : Option Int) : ofJson? f (.number i) = i.bind (ofInt? f) := by
  cases f <;> rfl

theorem ofJson?_value (s : Setting) : ofJson? s.field s.value = some s := by
  obtain number | ⟨peers, rfl⟩ := s.number_or_peers
  · rw [value_number number, ofJson?_number, ofInt?_int? number]
  · cases peers with
    | none => rfl
    | some peers => rw [field, value, ofJson?, mapM_stringItem?, Option.map_some]

theorem of_stringItem? {item : Json} {peer : String} (text : stringItem? item = some peer) :
    Json.string (some peer) = item := by
  cases item with
  | string content =>
      cases text
      rfl
  | _ => cases text

/-- A setting is read from its own value only. -/
theorem of_ofJson? {f : Field} {v : Json} {s : Setting} (read : ofJson? f v = some s) : s.field = f ∧ s.value = v := by
  cases v with
  | number i =>
      rw [ofJson?_number] at read
      obtain ⟨i, rfl, made⟩ := Option.bind_eq_some_iff.mp read
      obtain ⟨rfl, same⟩ := of_ofInt? made
      obtain number | ⟨peers, rfl⟩ := s.number_or_peers
      · exact ⟨rfl, by rw [value_number number, same]⟩
      · cases same
  | null =>
      cases f <;> cases read
      exact ⟨rfl, rfl⟩
  | array items =>
      cases f with
      | directPeers =>
          obtain ⟨peers, texts, rfl⟩ := Option.map_eq_some_iff.mp read
          have same := (map_of_mapM (P := fun _ => True) (fun _ _ text => ⟨trivial, of_stringItem? text⟩) texts).2
          exact ⟨rfl, congrArg Json.array same⟩
      | _ => cases read
  | _ => cases f <;> cases read

end Setting

def get (o : Options) : Field → Setting
  | .directPeerValue => .directPeerValue o.directPeerValue
  | .meshPeerValue => .meshPeerValue o.meshPeerValue
  | .deliveryBump => .deliveryBump o.deliveryBump
  | .deliveryCap => .deliveryCap o.deliveryCap
  | .decayIntervalSecs => .decayIntervalSecs o.decayIntervalSecs
  | .decayAmount => .decayAmount o.decayAmount
  | .directPeers => .directPeers o.directPeers

@[simp] theorem field_get (o : Options) (f : Field) : (o.get f).field = f := by
  cases f <;> rfl

theorem get_set (o : Options) (s : Setting) (f : Field) :
    (o.set s).get f = if f = s.field then s else o.get f := by
  cases f <;> cases s <;> rfl

theorem ext_get {o p : Options} (same : ∀ f, o.get f = p.get f) : o = p := by
  cases o
  cases p
  congr
  · exact Setting.directPeerValue.inj (same .directPeerValue)
  · exact Setting.meshPeerValue.inj (same .meshPeerValue)
  · exact Setting.deliveryBump.inj (same .deliveryBump)
  · exact Setting.deliveryCap.inj (same .deliveryCap)
  · exact Setting.decayIntervalSecs.inj (same .decayIntervalSecs)
  · exact Setting.decayAmount.inj (same .decayAmount)
  · exact Setting.directPeers.inj (same .directPeers)

end PeerTags.Options
