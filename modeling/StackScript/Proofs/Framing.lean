import Mathlib.Data.List.TakeWhile
import StackScript.Message
/-!
# Messages in a stream of bytes

Messages that are written one after the other are read back in order, up to the place where the
bytes end.  A message is read only if all of it is there, the byte that ends it included
(`Message.prefix_of_written_messages`).
-/

namespace StackScript

theorem takeWhile_dropWhile_of_not_mem {b : UInt8} {bytes : List UInt8} (h : b ∉ bytes)
    (rest : List UInt8) :
    (bytes ++ b :: rest).takeWhile (· ≠ b) = bytes ∧
      (bytes ++ b :: rest).dropWhile (· ≠ b) = b :: rest := by
  have hne : ∀ a ∈ bytes, decide (a ≠ b) = true := by
    intro a ha
    exact decide_eq_true (ne_of_mem_of_not_mem ha h)
  rw [List.takeWhile_append_of_pos hne, List.dropWhile_append_of_pos hne]
  simp

/-- Any bytes are pieces that each end with the given byte, one after the other, and a rest without
it. -/
theorem delimited_induction (b : UInt8) {motive : List UInt8 → Prop}
    (tail : ∀ bytes, b ∉ bytes → motive bytes)
    (piece : ∀ piece rest, b ∉ piece → motive rest → motive (piece ++ b :: rest))
    (bytes : List UInt8) : motive bytes := by
  induction hlength : bytes.length using Nat.strongRecOn generalizing bytes with
  | ind n ih =>
    by_cases hmem : b ∈ bytes
    · obtain ⟨first, rest, rfl, hfirst⟩ := List.eq_append_cons_of_mem hmem
      apply piece first rest hfirst
      apply ih rest.length ?_ rest rfl
      rw [← hlength, List.length_append, List.length_cons]
      omega
    · exact tail bytes hmem

namespace Message

variable {message bytes : List UInt8}

def carried (message : List UInt8) : List UInt8 :=
  message ++ [terminator]

def write (output message : List UInt8) : Except Failure Unit × List UInt8 :=
  match frame message with
  | .ok bytes => (.ok (), output ++ bytes)
  | .error f => (.error f, output)

/-- Write messages one after the other, whatever comes of each of them. -/
def writeEach (output : List UInt8) :
    List (List UInt8) → List (Except Failure Unit) × List UInt8
  | [] => ([], output)
  | message :: messages =>
    let (result, output) := write output message
    let (results, output) := writeEach output messages
    (result :: results, output)

theorem frame_of_not_mem (h : terminator ∉ message) :
    frame message = .ok (message ++ [terminator]) := by
  simp [frame, h]

theorem frame_of_mem (h : terminator ∈ message) : frame message = .error .zeroByte := by
  simp [frame, h]

theorem write_of_not_mem (h : terminator ∉ message) (output : List UInt8) :
    write output message = (.ok (), output ++ carried message) := by
  rw [write, frame_of_not_mem h]
  rfl

theorem write_of_mem (h : terminator ∈ message) (output : List UInt8) :
    write output message = (.error .zeroByte, output) := by
  rw [write, frame_of_mem h]

def accepted (messages : List (List UInt8)) : List (List UInt8) :=
  messages.filter fun message => terminator ∉ message

theorem writeEach_eq (output : List UInt8) (messages : List (List UInt8)) :
    writeEach output messages =
      (messages.map fun message => if terminator ∈ message then .error .zeroByte else .ok (),
        output ++ (accepted messages).flatMap carried) := by
  induction messages generalizing output with
  | nil => simp [writeEach, accepted]
  | cons message messages ih =>
    by_cases h : terminator ∈ message
    · simp [writeEach, write_of_mem h, ih, accepted, h]
    · simp [writeEach, write_of_not_mem h, ih, accepted, h]

theorem read_of_not_mem (h : terminator ∉ message) : read message = (.error .messageCut, []) := by
  have hdrop : message.dropWhile (· ≠ terminator) = [] := by
    rw [List.dropWhile_eq_nil_iff]
    intro b hb
    exact decide_eq_true (ne_of_mem_of_not_mem hb h)
  rw [read, hdrop]

theorem read_append (h : terminator ∉ message) (rest : List UInt8) :
    read (message ++ terminator :: rest) = (.ok message, rest) := by
  obtain ⟨htake, hdrop⟩ := takeWhile_dropWhile_of_not_mem h rest
  rw [read, hdrop, htake]

theorem length_rest_of_read {rest : List UInt8} (h : read bytes = (.ok message, rest)) :
    rest.length < bytes.length := by
  unfold read at h
  split at h
  · cases h
  · rename_i hdrop
    cases h
    have hsuffix := (List.dropWhile_suffix (l := bytes) (· ≠ terminator)).length_le
    rw [hdrop] at hsuffix
    exact hsuffix

/-- Read messages one after the other until one cannot be read: the messages before it, and the
reason. -/
def readEach (bytes : List UInt8) : List (List UInt8) × Failure :=
  match h : read bytes with
  | (.error f, _) => ([], f)
  | (.ok message, rest) =>
    have := length_rest_of_read h
    (message :: (readEach rest).1, (readEach rest).2)
termination_by bytes.length

theorem readEach_of_not_mem (h : terminator ∉ bytes) : readEach bytes = ([], .messageCut) := by
  rw [readEach]
  split <;> rename_i hread <;> rw [read_of_not_mem h] at hread
  · cases hread
    rfl
  · cases hread

theorem readEach_append (h : terminator ∉ message) (rest : List UInt8) :
    readEach (message ++ terminator :: rest) =
      (message :: (readEach rest).1, (readEach rest).2) := by
  rw [readEach]
  split <;> rename_i hread <;> rw [read_append h] at hread
  · cases hread
  · cases hread
    rfl

theorem message_induction {motive : List UInt8 → Prop}
    (tail : ∀ bytes, terminator ∉ bytes → motive bytes)
    (message : ∀ message rest, terminator ∉ message → motive rest →
      motive (message ++ terminator :: rest))
    (bytes : List UInt8) : motive bytes :=
  delimited_induction terminator tail message bytes

theorem readAll_of_not_mem (h : terminator ∉ bytes) : readAll bytes = ([], bytes) := by
  induction bytes with
  | nil => rfl
  | cons b bytes ih =>
    rw [List.mem_cons, not_or] at h
    rw [readAll, ih h.2]
    exact if_neg (Ne.symm h.1)

theorem readAll_append (h : terminator ∉ message) (rest : List UInt8) :
    readAll (message ++ terminator :: rest) = (message :: (readAll rest).1, (readAll rest).2) := by
  induction message with
  | nil => simp [readAll]
  | cons b message ih =>
    rw [List.mem_cons, not_or] at h
    rw [List.cons_append, readAll, ih h.2]
    exact if_neg (Ne.symm h.1)

theorem readEach_eq (bytes : List UInt8) : readEach bytes = ((readAll bytes).1, .messageCut) := by
  induction bytes using message_induction with
  | tail bytes h => rw [readEach_of_not_mem h, readAll_of_not_mem h]
  | message message rest h ih => rw [readEach_append h, readAll_append h, ih]

theorem flatMap_readAll_append (bytes : List UInt8) :
    (readAll bytes).1.flatMap carried ++ (readAll bytes).2 = bytes := by
  induction bytes using message_induction with
  | tail bytes h => rw [readAll_of_not_mem h, List.flatMap_nil, List.nil_append]
  | message message rest h ih =>
    rw [readAll_append h, List.flatMap_cons, List.append_assoc, ih]
    simp [carried]

theorem terminator_not_mem_tail (bytes : List UInt8) : terminator ∉ (readAll bytes).2 := by
  induction bytes using message_induction with
  | tail bytes h =>
    rw [readAll_of_not_mem h]
    exact h
  | message message rest h ih =>
    rw [readAll_append h]
    exact ih

/-- A first part of the bytes of a message and others after it ends inside the message, or it holds
all of the message. -/
theorem prefix_carried_cases {rest : List UInt8} (h : bytes <+: carried message ++ rest) :
    bytes <+: message ∨ ∃ more, bytes = message ++ terminator :: more ∧ more <+: rest := by
  rcases List.prefix_or_prefix_of_prefix h (List.prefix_append _ _) with hbytes | ⟨more, rfl⟩
  · rcases List.prefix_concat_iff.mp hbytes with rfl | hbytes
    · exact .inr ⟨[], rfl, List.nil_prefix⟩
    · exact .inl hbytes
  · refine .inr ⟨more, by simp [carried], ?_⟩
    exact (List.prefix_append_right_inj _).mp h

theorem exists_readAll_take {messages : List (List UInt8)}
    (hmessages : ∀ message ∈ messages, terminator ∉ message)
    (h : bytes <+: messages.flatMap carried) :
    ∃ k, (readAll bytes).1 = messages.take k ∧
      ∀ i < messages.length,
        (i < k ↔ ((messages.take (i + 1)).flatMap carried).length ≤ bytes.length) := by
  induction messages generalizing bytes with
  | nil =>
    obtain rfl := List.prefix_nil.mp h
    exact ⟨0, rfl, by simp⟩
  | cons message messages ih =>
    rw [List.forall_mem_cons] at hmessages
    rw [List.flatMap_cons] at h
    rcases prefix_carried_cases h with hbytes | ⟨more, rfl, hmore⟩
    · have hnone : terminator ∉ bytes := fun hmem => hmessages.1 (hbytes.subset hmem)
      refine ⟨0, by rw [readAll_of_not_mem hnone]; rfl, fun i hi => ?_⟩
      have hlength := hbytes.length_le
      simp only [List.take_succ_cons, List.flatMap_cons, List.length_append, carried,
        List.length_singleton]
      omega
    · obtain ⟨k, hread, hk⟩ := ih hmessages.2 hmore
      refine ⟨k + 1, ?_, fun i hi => ?_⟩
      · rw [readAll_append hmessages.1, hread]
        rfl
      · cases i with
        | zero =>
          simp only [List.take_succ_cons, List.take_zero, List.flatMap_cons, List.flatMap_nil,
            carried, List.length_append, List.length_cons, List.length_nil]
          omega
        | succ i =>
          have hi := hk i (Nat.lt_of_succ_lt_succ hi)
          simp only [List.take_succ_cons, List.flatMap_cons, List.length_append, carried,
            List.length_cons, List.length_nil] at hi ⊢
          omega

theorem not_mem_of_mem_accepted {messages : List (List UInt8)} (h : message ∈ accepted messages) :
    terminator ∉ message := by
  simpa using (List.mem_filter.mp h).2

/-- Of messages that are written one after the other, those with a zero byte are refused and leave
no trace.  From any first part of what is written, exactly the other messages that end in it are
read, in order, and then there is none.  Whatever bytes are read, they are the messages that are
read, each with the byte that ends it, and a rest without such a byte. -/
theorem prefix_of_written_messages {messages : List (List UInt8)} {bytes : List UInt8}
    (h : bytes <+: (writeEach [] messages).2) :
    (writeEach [] messages).1 =
      messages.map (fun message => if terminator ∈ message then .error .zeroByte else .ok ()) ∧
    (writeEach [] messages).2 = (accepted messages).flatMap carried ∧
    (∃ k, readEach bytes = ((accepted messages).take k, .messageCut) ∧
      ∀ i < (accepted messages).length,
        (i < k ↔ (((accepted messages).take (i + 1)).flatMap carried).length ≤ bytes.length)) ∧
    ∀ stream : List UInt8, ∃ tail, terminator ∉ tail ∧
      (readEach stream).1.flatMap carried ++ tail = stream ∧
      (readEach stream).2.kind = .unexpectedEnd := by
  rw [writeEach_eq, List.nil_append] at h ⊢
  refine ⟨rfl, rfl, ?_, fun stream => ?_⟩
  · obtain ⟨k, hread, hk⟩ := exists_readAll_take (fun _ => not_mem_of_mem_accepted) h
    exact ⟨k, by rw [readEach_eq, hread], hk⟩
  · refine ⟨(readAll stream).2, terminator_not_mem_tail stream, ?_, ?_⟩
    · rw [readEach_eq]
      exact flatMap_readAll_append stream
    · rw [readEach_eq]
      rfl

/-- Of four messages one is refused, one is empty, and the last one is cut before its end. -/
theorem prefix_of_four_messages :
    let messages := [[97, 98], [], [120, 0, 121], [99, 100]]
    (writeEach [] messages).2 = [97, 98, 0, 0, 99, 100, 0] ∧
      readEach [97, 98, 0, 0, 99, 100] = ([[97, 98], []], .messageCut) := by
  intro messages
  have hprefix : [97, 98, 0, 0, 99, 100] <+: (writeEach [] messages).2 := by decide
  obtain ⟨-, hwritten, ⟨k, hread, hk⟩, -⟩ := prefix_of_written_messages hprefix
  have hfirst : 1 < k := (hk 1 (by decide)).mpr (by decide)
  have hlast : ¬ 2 < k := fun h => absurd ((hk 2 (by decide)).mp h) (by decide)
  obtain rfl : k = 2 := by omega
  exact ⟨hwritten, hread⟩

end Message

end StackScript
