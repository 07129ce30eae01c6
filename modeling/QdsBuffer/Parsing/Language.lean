import QdsBuffer.Parsing.Structure
import QdsBuffer.Parsing.Duplicates

namespace QdsBuffer.Parsing
open Bytes

def Members.toList : Members → List (Cut × Json)
  | .nil => []
  | .cons key value members => (key, value) :: members.toList

mutual

-- The scalars of a value, whatever arrays they stand in.
def Json.scalars : Json → List Scalar
  | .null => []
  | .bool value => [.bool (ascii (if value then "true" else "false")) (some value)]
  | .int64 val text => [.int64 text (some val)]
  | .uint64 val text => [.uint64 text (some val)]
  | .double val text => [.double text (some val)]
  | .string value => [.string value.last (some value.last)]
  | .array elements => elements.scalars
  | .object _ => []

def Elements.scalars : Elements → List Scalar
  | .nil => []
  | .cons value elements => value.scalars ++ elements.scalars

end

mutual

-- Objects, listed in arrays of any nesting.
def Json.Listing : Json → Prop
  | .array elements => elements.Listing
  | .object _ => True
  | _ => False

def Elements.Listing : Elements → Prop
  | .nil => True
  | .cons value elements => value.Listing ∧ elements.Listing

end

theorem Json.leaf_scalars {value : Json} (h : value.Leaf) :
    value.events = value.scalars.map Event.onValue := by
  cases value with
  | array elements => exact h.elim
  | object members => exact h.elim
  | _ => rfl

mutual

theorem Json.scalars_events (value : Json) (h : value.objects = []) :
    value.events = value.scalars.map Event.onValue := by
  cases value with
  | array elements =>
    rw [Json.array_events]
    exact elements.scalars_events h
  | object members => simp [Json.objects] at h
  | _ => exact Json.leaf_scalars trivial

theorem Elements.scalars_events (elements : Elements) (h : elements.objects = []) :
    elements.events = elements.scalars.map Event.onValue := by
  cases elements with
  | nil => rfl
  | cons value elements =>
    rw [Elements.objects, List.append_eq_nil_iff] at h
    rw [Elements.cons_events, Elements.scalars, List.map_append, value.scalars_events h.1,
      elements.scalars_events h.2]

end

mutual

theorem Json.listing_events (value : Json) (h : value.Listing)
    (hflat : ∀ o ∈ value.objects, o.objects = []) :
    value.events = (value.objects.map Members.events).flatMap segment := by
  cases value with
  | array elements =>
    rw [Json.array_events]
    exact elements.listing_events h hflat
  | object members =>
    have hnone : members.objects = [] := hflat members List.mem_cons_self
    simp [Json.object_events, Json.objects, hnone]
  | _ => exact h.elim

theorem Elements.listing_events (elements : Elements) (h : elements.Listing)
    (hflat : ∀ o ∈ elements.objects, o.objects = []) :
    elements.events = (elements.objects.map Members.events).flatMap segment := by
  cases elements with
  | nil => rfl
  | cons value elements =>
    obtain ⟨hvalue, helements⟩ := List.forall_mem_append.mp hflat
    rw [Elements.cons_events, Elements.objects, List.map_append, List.flatMap_append,
      value.listing_events h.1 hvalue, elements.listing_events h.2 helements]

end

namespace DataValidator

mutual

theorem value_listing (value : Json) {st st' : ParsingState} (ho : Outside st)
    (h : process st value.events = .ok st') (hnull : NullFree value.tokens) : value.Listing := by
  cases value with
  | array elements =>
    rw [Json.array_events] at h
    refine elements_listing elements ho h ?_
    exact fun hm => hnull (by simp [Json.tokens, hm])
  | object members => trivial
  | null => exact hnull (by simp [Json.tokens])
  | _ => exact absurd h (not_scalar_outside (by trivial) ho)

theorem elements_listing (elements : Elements) {st st' : ParsingState} (ho : Outside st)
    (h : process st elements.events = .ok st') (hnull : NullFree elements.tokens) :
    elements.Listing := by
  cases elements with
  | nil => trivial
  | cons value elements =>
    rw [Elements.cons_events] at h
    rw [NullFree, Elements.tokens, List.mem_append, not_or] at hnull
    obtain ⟨st₁, hvalue, hrest⟩ := process_append_ok _ h
    exact ⟨value_listing value ho hvalue hnull.1,
      elements_listing elements (value_outside value ho hvalue) hrest hnull.2⟩

end

def InRange (m : Measurement) : Prop :=
  (∀ i, m.type = .integer → m.value = .int64 i → i.toInt ≤ 2147483647) ∧
    ∀ x, m.type = .float → m.value = .double x → x.gt floatMax = false

end DataValidator

end QdsBuffer.Parsing
