import Kanrin.Lib.Reader
import Kanrin.Lib.DnsMessage

/-!
# Reading DNS messages

A message is read section by section, as many records as the header says. A
name ends with the root or, within a record, with a pointer into the message,
which is not followed. `Message.parse_eq_some_iff`: a byte string is a message
in one way at most, and it has to be nothing else.
-/

namespace Lib

namespace Dns

/-! ## Names -/

inductive NameEnd where
  | root
  /-- The two bytes of a pointer. -/
  | pointer (hi lo : UInt8)
deriving DecidableEq

def NameEnd.encode : NameEnd → Bytes
  | root => [0]
  | pointer hi lo => [hi, lo]

structure Name where
  labels : List Bytes
  last : NameEnd
deriving DecidableEq

namespace Name

def encode (n : Name) : Bytes :=
  n.labels.flatMap (fun label => UInt8.ofNat label.length :: label) ++ n.last.encode

structure WellFormed (n : Name) : Prop where
  label : ∀ label ∈ n.labels, 0 < label.length ∧ label.length ≤ 63
  pointer : ∀ hi lo, n.last = .pointer hi lo → 0xC0 ≤ hi

/-- One more label in front. -/
def cons (label : Bytes) (n : Name) : Name where
  labels := label :: n.labels
  last := n.last

theorem encode_cons (label : Bytes) (n : Name) :
    (n.cons label).encode = UInt8.ofNat label.length :: (label ++ n.encode) := by
  rw [encode, encode, cons, List.flatMap_cons, List.cons_append, List.cons_append,
    List.append_assoc]

theorem wellFormed_cons {label : Bytes} {n : Name} :
    (n.cons label).WellFormed ↔ (0 < label.length ∧ label.length ≤ 63) ∧ n.WellFormed := by
  constructor
  · rintro ⟨hlabel, hpointer⟩
    exact ⟨hlabel label List.mem_cons_self,
      fun l hl => hlabel l (List.mem_cons_of_mem _ hl), hpointer⟩
  · rintro ⟨hlabel, hrest, hpointer⟩
    exact ⟨List.forall_mem_cons.mpr ⟨hlabel, hrest⟩, hpointer⟩

theorem length_labels_lt (n : Name) : n.labels.length < n.encode.length := by
  have hlast : 0 < n.last.encode.length := by cases n.last <;> exact Nat.succ_pos _
  have hlabels : n.labels.length
      ≤ (n.labels.flatMap fun label => UInt8.ofNat label.length :: label).length := by
    induction n.labels with
    | nil => exact Nat.le_refl 0
    | cons label labels ih =>
        rw [List.flatMap_cons, List.length_append, List.length_cons, List.length_cons]
        omega
  rw [encode, List.length_append]
  omega

end Name

/-- The second byte of a pointer. -/
def readPointer (hi : UInt8) : Reader Name
  | [] => none
  | lo :: b => some ({ labels := [], last := .pointer hi lo }, b)

/-- The labels up to the root or a pointer. Each round takes a label. -/
def readNameFrom : (fuel : Nat) → Reader Name
  | 0, _ => none
  | _ + 1, [] => none
  | fuel + 1, l :: b =>
      if l = 0 then some ({ labels := [], last := .root }, b)
      else if 0xC0 ≤ l then readPointer l b
      else if 0x40 ≤ l then none
      else do
        let (label, b) ← readBytes l.toNat b
        let (name, b) ← readNameFrom fuel b
        return (name.cons label, b)

theorem readNameFrom_sound {fuel : Nat} {b t : Bytes} {n : Name}
    (h : readNameFrom fuel b = some (n, t)) : n.WellFormed ∧ b = n.encode ++ t := by
  induction fuel generalizing b n with
  | zero => cases h
  | succ fuel ih =>
      cases b with
      | nil => cases h
      | cons l b =>
          rw [readNameFrom] at h
          split at h
          · rename_i hroot
            obtain ⟨rfl, rfl⟩ := Prod.mk.inj (Option.some.inj h)
            exact ⟨⟨fun _ hl => (nomatch hl), fun _ _ hl => (nomatch hl)⟩, hroot ▸ rfl⟩
          · split at h
            · rename_i hpointer
              cases b with
              | nil => cases h
              | cons lo b =>
                  obtain ⟨rfl, rfl⟩ := Prod.mk.inj (Option.some.inj h)
                  refine ⟨⟨fun _ hl => (nomatch hl), fun hi lo' hl => ?_⟩, rfl⟩
                  obtain ⟨rfl, rfl⟩ := NameEnd.pointer.inj hl
                  exact hpointer
            · split at h
              · cases h
              · rename_i hzero _ hshort
                simp only [Option.bind_eq_bind, Option.bind_eq_some_iff, Prod.exists,
                  reads_readBytes _ _ _ _, Option.pure_def, Option.some.injEq,
                  Prod.mk.injEq] at h
                obtain ⟨label, s, ⟨hlen, rfl⟩, n', s', hread, rfl, rfl⟩ := h
                obtain ⟨hn', rfl⟩ := ih hread
                have hpos : 0 < l.toNat := by
                  rw [← UInt8.toNat_inj, UInt8.toNat_zero] at hzero
                  omega
                have hle : l.toNat < 0x40 := by
                  rw [UInt8.not_le, UInt8.lt_iff_toNat_lt] at hshort
                  exact hshort
                refine ⟨Name.wellFormed_cons.mpr ⟨⟨by omega, by omega⟩, hn'⟩, ?_⟩
                rw [Name.encode_cons, hlen, UInt8.ofNat_toNat, List.cons_append,
                  List.append_assoc]
                rfl

theorem readNameFrom_complete {fuel : Nat} {n : Name} (t : Bytes) (hn : n.WellFormed)
    (hfuel : n.labels.length < fuel) : readNameFrom fuel (n.encode ++ t) = some (n, t) := by
  obtain ⟨labels, last⟩ := n
  induction labels generalizing fuel with
  | nil =>
      obtain ⟨fuel, rfl⟩ := Nat.exists_eq_succ_of_ne_zero hfuel.ne_zero
      cases last with
      | root => rfl
      | pointer hi lo =>
          have hhi : 0xC0 ≤ hi := hn.pointer hi lo rfl
          have hne : hi ≠ 0 := by rintro rfl; exact absurd hhi (by decide)
          show readNameFrom (fuel + 1) (hi :: lo :: t) = _
          rw [readNameFrom, if_neg hne, if_pos hhi, readPointer]
  | cons label labels ih =>
      obtain ⟨fuel, rfl⟩ := Nat.exists_eq_succ_of_ne_zero hfuel.ne_zero
      have hcons : (Name.cons label ⟨labels, last⟩).WellFormed := hn
      obtain ⟨⟨hpos, hle⟩, hrest⟩ := Name.wellFormed_cons.mp hcons
      have hlen : (UInt8.ofNat label.length).toNat = label.length := by
        rw [UInt8.toNat_ofNat']
        omega
      have hne : UInt8.ofNat label.length ≠ 0 := by
        rw [Ne, ← UInt8.toNat_inj, hlen, UInt8.toNat_zero]
        omega
      have hnotpointer : ¬ 0xC0 ≤ UInt8.ofNat label.length := by
        rw [UInt8.le_iff_toNat_le, hlen]
        show ¬ 192 ≤ label.length
        omega
      have hnotlong : ¬ 0x40 ≤ UInt8.ofNat label.length := by
        rw [UInt8.le_iff_toNat_le, hlen]
        show ¬ 64 ≤ label.length
        omega
      have hlabel : readBytes label.length (label ++ (Name.encode ⟨labels, last⟩ ++ t))
          = some (label, Name.encode ⟨labels, last⟩ ++ t) :=
        (reads_readBytes _ _ _ _).mpr ⟨rfl, rfl⟩
      show readNameFrom (fuel + 1) ((Name.cons label ⟨labels, last⟩).encode ++ t) = _
      rw [Name.encode_cons, List.cons_append, List.append_assoc, readNameFrom, if_neg hne,
        if_neg hnotpointer, if_neg hnotlong, hlen, hlabel]
      simp only [Option.bind_eq_bind, Option.bind_some]
      rw [ih hrest (Nat.lt_of_succ_lt_succ hfuel)]
      rfl

def readName : Reader Name := fun b => readNameFrom b.length b

theorem reads_readName : Reads Name.encode Name.WellFormed readName := by
  intro b n t
  constructor
  · exact readNameFrom_sound
  · rintro ⟨hn, rfl⟩
    refine readNameFrom_complete t hn ?_
    have hlt := n.length_labels_lt
    rw [List.length_append]
    omega

/-! ## Questions and records -/

/-- Labels of the lengths that a byte of length can have. -/
def Question.Legible (q : Question) : Prop :=
  ∀ label ∈ q.labels, 0 < label.length ∧ label.length ≤ 63

/-- The name of a question is written out. -/
def readQuestion : Reader Question := fun b => do
  let (name, b) ← readName b
  let (qtype, b) ← readU16 b
  let (qclass, b) ← readU16 b
  if name.last = .root then return ({ labels := name.labels, qtype, qclass }, b) else none

theorem reads_readQuestion : Reads Question.encode Question.Legible readQuestion := by
  intro b q t
  simp only [readQuestion, reads_readName.bind_eq_some_iff, reads_readU16.bind_eq_some_iff,
    true_and, Option.pure_def, Option.ite_none_right_eq_some, Option.some.injEq, Prod.mk.injEq]
  constructor
  · rintro ⟨⟨labels, last⟩, s, ⟨hname, rfl⟩, qtype, s', rfl, qclass, s'', rfl, hroot, rfl, rfl⟩
    dsimp only at hroot
    subst hroot
    refine ⟨hname.label, ?_⟩
    simp only [Question.encode, List.append_assoc]
    rfl
  · rintro ⟨hq, rfl⟩
    refine ⟨{ labels := q.labels, last := .root }, _, ⟨⟨hq, fun _ _ h => (nomatch h)⟩, ?_⟩,
      q.qtype, _, rfl, q.qclass, t, rfl, rfl, rfl, rfl⟩
    simp only [Question.encode, List.append_assoc]
    rfl

/-- The name of a record is a name, and its data is as long as the record says. -/
structure Record.WellFormed (r : Record) : Prop where
  name : ∃ n : Name, n.WellFormed ∧ r.name = n.encode
  rdata : r.rdata.length < 2 ^ 16

def readRecord : Reader Record := fun b => do
  let (name, b) ← readName b
  let (rtype, b) ← readU16 b
  let (rclass, b) ← readU16 b
  let (ttl, b) ← readU32 b
  let (rdlength, b) ← readU16 b
  let (rdata, b) ← readBytes rdlength.toNat b
  return ({ name := name.encode, rtype, rclass, ttl, rdata }, b)

theorem reads_readRecord : Reads Record.encode Record.WellFormed readRecord := by
  intro b r t
  simp only [readRecord, reads_readName.bind_eq_some_iff, reads_readU16.bind_eq_some_iff,
    reads_readU32.bind_eq_some_iff, (reads_readBytes _).bind_eq_some_iff, true_and,
    Option.pure_def, Option.some.injEq, Prod.mk.injEq]
  constructor
  · rintro ⟨n, s, ⟨hn, rfl⟩, rtype, s1, rfl, rclass, s2, rfl, ttl, s3, rfl, rdlength, s4, rfl,
      rdata, s5, ⟨hlen, rfl⟩, rfl, rfl⟩
    have hlt := rdlength.toNat_lt
    refine ⟨⟨⟨n, hn, rfl⟩, by dsimp only; omega⟩, ?_⟩
    simp only [Record.encode, List.append_assoc, hlen, UInt16.ofNat_toNat]
    rfl
  · rintro ⟨⟨⟨n, hn, hname⟩, hlt⟩, rfl⟩
    have hlen : (UInt16.ofNat r.rdata.length).toNat = r.rdata.length := by
      rw [UInt16.toNat_ofNat', Nat.mod_eq_of_lt hlt]
    refine ⟨n, _, ⟨hn, ?_⟩, r.rtype, _, rfl, r.rclass, _, rfl, r.ttl, _, rfl,
      UInt16.ofNat r.rdata.length, _, rfl, r.rdata, t, ⟨hlen.symm, rfl⟩, ?_, rfl⟩
    · simp only [Record.encode, List.append_assoc, hname]
      rfl
    · rw [← hname]

/-! ## Messages -/

namespace Message

structure WellFormed (m : Message) : Prop where
  fits : m.Fits
  question : m.question.Legible
  answers : ∀ r ∈ m.answers, r.WellFormed
  authority : ∀ r ∈ m.authority, r.WellFormed
  additional : ∀ r ∈ m.additional, r.WellFormed

/-- The whole of the bytes is a message with one question. -/
def parse (b : Bytes) : Option Message := do
  let (id, b) ← readU16 b
  let (flags, b) ← readU16 b
  let (qdcount, b) ← readU16 b
  let (ancount, b) ← readU16 b
  let (nscount, b) ← readU16 b
  let (arcount, b) ← readU16 b
  let (question, b) ← readQuestion b
  let (answers, b) ← readMany readRecord ancount.toNat b
  let (authority, b) ← readMany readRecord nscount.toNat b
  let (additional, b) ← readMany readRecord arcount.toNat b
  if qdcount = 1 ∧ b = [] then return { id, flags, question, answers, authority, additional }
  else none

theorem toNat_count {records : List Record} (h : records.length < 2 ^ 16) :
    (UInt16.ofNat records.length).toNat = records.length := by
  rw [UInt16.toNat_ofNat', Nat.mod_eq_of_lt h]

theorem parse_eq_some_iff {b : Bytes} {m : Message} :
    parse b = some m ↔ m.WellFormed ∧ b = m.encode := by
  simp only [parse, reads_readU16.bind_eq_some_iff, reads_readQuestion.bind_eq_some_iff,
    (reads_readRecord.many _).bind_eq_some_iff, true_and, Option.pure_def,
    Option.ite_none_right_eq_some, Option.some.injEq]
  constructor
  · rintro ⟨id, s1, rfl, flags, s2, rfl, qd, s3, rfl, an, s4, rfl, ns, s5, rfl, ar, s6, rfl,
      question, s7, ⟨hq, rfl⟩, answers, s8, ⟨⟨han, hanswers⟩, rfl⟩, authority, s9,
      ⟨⟨hns, hauthority⟩, rfl⟩, additional, s10, ⟨⟨har, hadditional⟩, rfl⟩, ⟨rfl, rfl⟩, rfl⟩
    have hanlt := an.toNat_lt
    have hnslt := ns.toNat_lt
    have harlt := ar.toNat_lt
    refine ⟨⟨⟨by dsimp only; omega, by dsimp only; omega, by dsimp only; omega⟩, hq, hanswers,
      hauthority, hadditional⟩, ?_⟩
    simp only [encode, count, han, hns, har, UInt16.ofNat_toNat, List.flatMap_append,
      List.append_assoc, List.append_nil]
  · rintro ⟨hm, rfl⟩
    refine ⟨m.id, _, rfl, m.flags, _, rfl, 1, _, rfl, UInt16.ofNat m.answers.length, _, rfl,
      UInt16.ofNat m.authority.length, _, rfl, UInt16.ofNat m.additional.length, _, rfl,
      m.question, (m.answers ++ m.authority ++ m.additional).flatMap Record.encode,
      ⟨hm.question, rfl⟩, m.answers, (m.authority ++ m.additional).flatMap Record.encode,
      ⟨⟨(toNat_count hm.fits.answers).symm, hm.answers⟩, ?_⟩, m.authority,
      m.additional.flatMap Record.encode, ⟨⟨(toNat_count hm.fits.authority).symm,
      hm.authority⟩, List.flatMap_append⟩, m.additional, [],
      ⟨⟨(toNat_count hm.fits.additional).symm, hm.additional⟩, (List.append_nil _).symm⟩,
      ⟨rfl, rfl⟩, rfl⟩
    rw [List.append_assoc, List.flatMap_append]

end Message

end Dns

end Lib
