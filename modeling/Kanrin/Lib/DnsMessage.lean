import Kanrin.Lib.Fixed

/-!
# DNS messages

A message with one question, as RFC 1035 lays it out: twelve bytes of
header with the sizes of the four sections, the question, and the records
of the other three. A name within a record stays as it was encoded, since
it may point back into the message.
-/

namespace Lib

namespace Dns

/-- Labels with their lengths, and the root. -/
def encodeName (labels : List Bytes) : Bytes :=
  labels.flatMap (fun label => UInt8.ofNat label.length :: label) ++ [0]

structure Question where
  labels : List Bytes
  qtype : UInt16
  qclass : UInt16
deriving DecidableEq

def Question.encode (q : Question) : Bytes :=
  encodeName q.labels ++ ((u16ToBe q.qtype).toList ++ (u16ToBe q.qclass).toList)

structure Question.WellFormed (q : Question) : Prop where
  name : q.labels ≠ []
  label : ∀ label ∈ q.labels, 0 < label.length ∧ label.length ≤ 63

instance (q : Question) : Decidable q.WellFormed :=
  decidable_of_iff (q.labels ≠ [] ∧ ∀ label ∈ q.labels, 0 < label.length ∧ label.length ≤ 63)
    ⟨fun h => ⟨h.1, h.2⟩, fun h => ⟨h.name, h.label⟩⟩

structure Record where
  /-- As it was encoded. -/
  name : Bytes
  rtype : UInt16
  rclass : UInt16
  ttl : UInt32
  rdata : Bytes
deriving DecidableEq

def Record.encode (r : Record) : Bytes :=
  r.name ++ ((u16ToBe r.rtype).toList ++ ((u16ToBe r.rclass).toList ++ ((u32ToBe r.ttl).toList
    ++ ((u16ToBe (UInt16.ofNat r.rdata.length)).toList ++ r.rdata))))

/-- The type of a record that holds an IPv4 address. -/
def typeA : UInt16 := 1

structure Message where
  id : UInt16
  flags : UInt16
  question : Question
  answers : List Record
  authority : List Record
  additional : List Record
deriving DecidableEq

namespace Message

/-- The sizes of the sections fit the header. -/
structure Fits (m : Message) : Prop where
  answers : m.answers.length < 2 ^ 16
  authority : m.authority.length < 2 ^ 16
  additional : m.additional.length < 2 ^ 16

def count (records : List Record) : Bytes := (u16ToBe (UInt16.ofNat records.length)).toList

def encode (m : Message) : Bytes :=
  (u16ToBe m.id).toList ++ ((u16ToBe m.flags).toList ++ ((u16ToBe 1).toList ++ (count m.answers
    ++ (count m.authority ++ (count m.additional ++ (m.question.encode
    ++ (m.answers ++ m.authority ++ m.additional).flatMap Record.encode))))))

/-- A standard query for the name of its question. -/
structure IsQuery (m : Message) : Prop where
  fits : m.Fits
  question : m.question.WellFormed
  -- neither a response nor another kind of query
  flags : m.flags.toNat / 2 ^ 11 = 0
  answers : m.answers = []

theorem length_count (records : List Record) : (count records).length = 2 :=
  List.Vector.toList_length _

/-- How many answers a message has can be read off its header. -/
theorem take_eight (m : Message) :
    m.encode.take 8 = (u16ToBe m.id).toList ++ ((u16ToBe m.flags).toList ++ ((u16ToBe 1).toList
      ++ count m.answers)) := by
  rw [encode, ← List.append_assoc, ← List.append_assoc, ← List.append_assoc]
  rw [List.take_left']
  · simp only [List.append_assoc]
  · simp only [List.length_append, List.Vector.toList_length, length_count]

theorem length_encode (m : Message) : 12 ≤ m.encode.length := by
  simp only [encode, List.length_append, List.Vector.toList_length, length_count]
  omega

/-- Two messages whose headers are the same have as many answers. -/
theorem answers_eq_nil_of_take {m m' : Message} (hfits : m.Fits) (hnil : m'.answers = [])
    (h : m.encode.take 8 = m'.encode.take 8) : m.answers = [] := by
  rw [take_eight, take_eight, hnil] at h
  obtain ⟨-, h⟩ := List.append_inj h (by simp)
  obtain ⟨-, h⟩ := List.append_inj h (by simp)
  obtain ⟨-, h⟩ := List.append_inj h (by simp)
  have hcount := u16ToBe_injective (ByteArr.toList_inj.mp h)
  have hlen : m.answers.length = 0 := by
    have hnat := congrArg UInt16.toNat hcount
    rw [UInt16.toNat_ofNat', Nat.mod_eq_of_lt hfits.answers] at hnat
    exact hnat
  exact List.length_eq_zero_iff.mp hlen

end Message

end Dns

end Lib
