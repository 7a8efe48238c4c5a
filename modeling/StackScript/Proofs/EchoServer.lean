import Mathlib.Algebra.BigOperators.Group.List.Basic
import StackScript.Echo.Session
import StackScript.Proofs.Framing
import StackScript.Proofs.WellFormedText
/-!
# The echo server and any peer

Whatever bytes a peer sends, they are whole messages that hold texts, one after the other, up to the
end of the bytes or to a message that holds none (`Message.exists_texts`, `Message.texts_unique`).
The server greets the peer and answers each of these texts, in order, and it stops there
(`Echo.session_answers_each_text`).
-/

namespace StackScript

namespace Message

/-- The bytes that carry a text as one message. -/
def framed (text : String) : List UInt8 :=
  Utf8.encode text ++ [terminator]

theorem framed_append (text : String) (rest : List UInt8) :
    framed text ++ rest = Utf8.encode text ++ terminator :: rest := by
  simp [framed]

theorem readAll_framed {texts : List String} (h : ∀ t ∈ texts, terminator ∉ Utf8.encode t) :
    readAll (texts.flatMap framed) = (texts.map Utf8.encode, []) := by
  induction texts with
  | nil => rfl
  | cons t texts ih =>
    rw [List.forall_mem_cons] at h
    rw [List.flatMap_cons, framed_append, readAll_append h.1, ih h.2, List.map_cons]

/-- No text comes first in the bytes: no message is whole, or the first one holds none. -/
def Textless (bytes : List UInt8) : Prop :=
  terminator ∉ bytes ∨ ∃ message after, bytes = message ++ terminator :: after ∧
    terminator ∉ message ∧ ∀ t, Utf8.encode t ≠ message

theorem encode_ne_of_decode {message : List UInt8} {defect : Utf8.Defect}
    (h : Utf8.decode message = .error defect) (t : String) : Utf8.encode t ≠ message := by
  rintro rfl
  rw [Utf8.decode_encode] at h
  cases h

theorem exists_defect {message : List UInt8} (h : ∀ t, Utf8.encode t ≠ message) :
    ∃ defect, Utf8.decode message = .error defect := by
  rcases hdecode : Utf8.decode message with defect | text
  · exact ⟨defect, rfl⟩
  · exact absurd (Utf8.decode_eq_ok_iff.mp hdecode) (h text)

theorem exists_texts (bytes : List UInt8) :
    ∃ (texts : List String) (rest : List UInt8), bytes = texts.flatMap framed ++ rest ∧
      (∀ t ∈ texts, terminator ∉ Utf8.encode t) ∧ Textless rest := by
  induction hlength : bytes.length using Nat.strongRecOn generalizing bytes with
  | ind n ih =>
    by_cases hmem : terminator ∈ bytes
    · obtain ⟨message, after, rfl, hmessage⟩ := List.eq_append_cons_of_mem hmem
      rcases hdecode : Utf8.decode message with defect | text
      · have htextless : Textless (message ++ terminator :: after) :=
          .inr ⟨message, after, rfl, hmessage, encode_ne_of_decode hdecode⟩
        exact ⟨[], _, rfl, by simp, htextless⟩
      · rw [Utf8.decode_eq_ok_iff] at hdecode
        have hshorter : after.length < n := by
          rw [← hlength, List.length_append, List.length_cons]
          omega
        obtain ⟨texts, rest, hafter, htexts, hrest⟩ := ih _ hshorter after rfl
        refine ⟨text :: texts, rest, ?_, List.forall_mem_cons.mpr ⟨?_, htexts⟩, hrest⟩
        · rw [List.flatMap_cons, List.append_assoc, framed_append, hdecode, hafter]
        · rw [hdecode]
          exact hmessage
    · exact ⟨[], bytes, rfl, by simp, .inl hmem⟩

theorem not_textless_framed_append {text : String} (h : terminator ∉ Utf8.encode text)
    (rest : List UInt8) : ¬Textless (framed text ++ rest) := by
  rw [framed_append]
  rintro (hmem | ⟨message, after, hbytes, hmessage, hnone⟩)
  · exact hmem (by simp)
  · have hread := read_append h rest
    rw [hbytes, read_append hmessage] at hread
    cases hread
    exact hnone text rfl

/-- Bytes are texts and a rest in one way only. -/
theorem texts_unique {texts texts' : List String} {rest rest' : List UInt8}
    (htexts : ∀ t ∈ texts, terminator ∉ Utf8.encode t) (hrest : Textless rest)
    (htexts' : ∀ t ∈ texts', terminator ∉ Utf8.encode t) (hrest' : Textless rest')
    (h : texts.flatMap framed ++ rest = texts'.flatMap framed ++ rest') :
    texts = texts' ∧ rest = rest' := by
  induction texts generalizing texts' with
  | nil =>
    cases texts' with
    | nil => exact ⟨rfl, h⟩
    | cons t' texts' =>
      rw [List.forall_mem_cons] at htexts'
      rw [List.flatMap_nil, List.nil_append, List.flatMap_cons, List.append_assoc] at h
      exact absurd (h ▸ hrest) (not_textless_framed_append htexts'.1 _)
  | cons t texts ih =>
    rw [List.forall_mem_cons] at htexts
    rw [List.flatMap_cons, List.append_assoc] at h
    cases texts' with
    | nil =>
      rw [List.flatMap_nil, List.nil_append] at h
      exact absurd (h.symm ▸ hrest') (not_textless_framed_append htexts.1 _)
    | cons t' texts' =>
      rw [List.forall_mem_cons] at htexts'
      rw [List.flatMap_cons, List.append_assoc, framed_append, framed_append] at h
      have hread := read_append htexts.1 (texts.flatMap framed ++ rest)
      rw [h, read_append htexts'.1, Prod.mk.injEq, Except.ok.injEq] at hread
      obtain ⟨rfl, rfl⟩ := ih htexts.2 htexts'.2 hread.2.symm
      exact ⟨congrArg (· :: texts) (Utf8.encode_injective hread.1.symm), rfl⟩

theorem toList_escape (text : String) :
    (escape text).toList =
      text.toList.flatMap fun c => if c = '\\' ∨ c = '"' then ['\\', c] else [c] := by
  rw [escape, String.toList_ofList]
  congr 1
  funext c
  by_cases hbackslash : c = '\\'
  · simp [escapeChar, hbackslash]
  · by_cases hquote : c = '"'
    · simp [escapeChar, hquote]
    · simp [escapeChar, hbackslash, hquote]

theorem terminator_mem_encode_iff {text : String} :
    terminator ∈ Utf8.encode text ↔ '\x00' ∈ text.toList :=
  Utf8.mem_encode_iff (by decide)

theorem terminator_not_mem_escape {text : String} (h : terminator ∉ Utf8.encode text) :
    terminator ∉ Utf8.encode (escape text) := by
  rw [terminator_mem_encode_iff] at h ⊢
  simp only [escape, String.toList_ofList, List.mem_flatMap, not_exists, not_and]
  intro c hc hzero
  have hne : c ≠ '\x00' := fun heq => h (heq ▸ hc)
  simp only [escapeChar] at hzero
  split at hzero
  · simp at hzero
  · split at hzero
    · simp at hzero
    · exact hne (List.mem_singleton.mp hzero).symm

end Message

namespace Connection

variable {c : Connection} {text : String}

theorem send_of_not_mem (h : Message.terminator ∉ Utf8.encode text) :
    c.send text =
      (.ok (), { c with
        sent := c.sent ++ Message.framed text, incoming := c.incoming ++ c.peer.answer text }) := by
  rw [send, Message.frame_of_not_mem h]
  rfl

theorem receive_text {rest : List UInt8} (h : Message.terminator ∉ Utf8.encode text)
    (hc : c.incoming = Message.framed text ++ rest) :
    c.receive = (.ok text, { c with incoming := rest }) := by
  rw [receive, hc, Message.framed_append, Message.read_append h]
  simp only [Utf8.decode_encode]

theorem receive_malformed {message rest : List UInt8} {defect : Utf8.Defect}
    (h : Message.terminator ∉ message) (hdecode : Utf8.decode message = .error defect)
    (hc : c.incoming = message ++ Message.terminator :: rest) :
    c.receive = (.error (.malformedMessage defect), { c with incoming := rest }) := by
  rw [receive, hc, Message.read_append h]
  simp only [hdecode]

theorem receive_of_not_mem (h : Message.terminator ∉ c.incoming) :
    c.receive = (.error .messageCut, { c with incoming := [] }) := by
  rw [receive, Message.read_of_not_mem h]

end Connection

namespace Echo

open Message (framed terminator)

theorem terminator_not_mem_welcome : terminator ∉ Utf8.encode welcome := by
  delta welcome
  rewrite [Utf8.encode_append, Utf8.encode_append]
  decide +kernel

theorem terminator_not_mem_reply {message : String} (h : terminator ∉ Utf8.encode message) :
    terminator ∉ Utf8.encode (reply message) := by
  have hopen : terminator ∉ Utf8.encode "\"Received: " := by decide
  have hclose : terminator ∉ Utf8.encode "\\n\" write" := by decide
  simp only [reply, Utf8.encode_append, List.mem_append, not_or]
  exact ⟨⟨hopen, Message.terminator_not_mem_escape h⟩, hclose⟩

variable {c : Connection} {rest : List UInt8}

theorem answer_text {text : String} (hpeer : c.peer = .silent)
    (htext : terminator ∉ Utf8.encode text) (hc : c.incoming = framed text ++ rest) (limit : Nat) :
    answer (limit + 1) c =
      answer limit { c with incoming := rest, sent := c.sent ++ framed (reply text) } := by
  rw [answer, Connection.receive_text htext hc]
  simp only [Connection.send_of_not_mem (terminator_not_mem_reply htext), hpeer, Peer.answer,
    List.append_nil]

theorem answer_texts {texts : List String} (hpeer : c.peer = .silent)
    (htexts : ∀ t ∈ texts, terminator ∉ Utf8.encode t)
    (hc : c.incoming = texts.flatMap framed ++ rest) (limit : Nat) :
    answer (texts.length + limit) c =
      answer limit { c with
        incoming := rest, sent := c.sent ++ (texts.map reply).flatMap framed } := by
  induction texts generalizing c with
  | nil =>
    simp only [List.flatMap_nil, List.nil_append] at hc
    simp [← hc]
  | cons t texts ih =>
    rw [List.forall_mem_cons] at htexts
    rw [List.flatMap_cons, List.append_assoc] at hc
    let next : Connection :=
      { c with incoming := texts.flatMap framed ++ rest, sent := c.sent ++ framed (reply t) }
    have hnext := ih (c := next) hpeer htexts.2 rfl
    rw [List.length_cons, Nat.add_right_comm, answer_text hpeer htexts.1 hc, hnext]
    simp only [next, List.map_cons, List.flatMap_cons, List.append_assoc]

theorem answer_of_not_mem (hc : terminator ∉ c.incoming) (limit : Nat) :
    answer (limit + 1) c = (.ok (), { c with incoming := [] }) := by
  rw [answer, Connection.receive_of_not_mem hc]
  rfl

theorem answer_malformed {message : List UInt8} {defect : Utf8.Defect} (h : terminator ∉ message)
    (hdecode : Utf8.decode message = .error defect)
    (hc : c.incoming = message ++ terminator :: rest) (limit : Nat) :
    answer (limit + 1) c = (.error (.malformedMessage defect), { c with incoming := rest }) := by
  rw [answer, Connection.receive_malformed h hdecode hc]
  rfl

theorem exists_answer_eq {texts : List String} (hpeer : c.peer = .silent)
    (htexts : ∀ t ∈ texts, terminator ∉ Utf8.encode t)
    (hc : c.incoming = texts.flatMap framed ++ rest) :
    ∃ limit, answer (c.incoming.length + 1) c =
      answer (limit + 1) { c with
        incoming := rest, sent := c.sent ++ (texts.map reply).flatMap framed } := by
  have hcount : texts.length ≤ (texts.flatMap framed).length := by
    have hsum := List.length_le_sum_of_one_le (texts.map fun t => (framed t).length)
      (by simp [framed])
    rwa [List.length_map, ← List.length_flatMap] at hsum
  obtain ⟨more, hmore⟩ := Nat.exists_eq_add_of_le hcount
  have hlimit : c.incoming.length + 1 = texts.length + (more + rest.length + 1) := by
    rw [hc, List.length_append]
    omega
  exact ⟨more + rest.length, by rw [hlimit, answer_texts hpeer htexts hc]⟩

theorem session_of_send {next : Connection} (h : c.send welcome = (.ok (), next)) :
    session c = answer (next.incoming.length + 1) next := by
  unfold session
  rw [h]

theorem exists_session_eq {texts : List String}
    (htexts : ∀ t ∈ texts, terminator ∉ Utf8.encode t) (rest : List UInt8) :
    ∃ limit, session { incoming := texts.flatMap framed ++ rest } =
      answer (limit + 1)
        { incoming := rest, sent := (welcome :: texts.map reply).flatMap framed } := by
  have hsend := Connection.send_of_not_mem
    (c := { incoming := texts.flatMap framed ++ rest }) terminator_not_mem_welcome
  simp only [Peer.answer, List.append_nil, List.nil_append] at hsend
  rw [session_of_send hsend, List.flatMap_cons]
  exact exists_answer_eq rfl htexts rfl

theorem session_framed {texts : List String}
    (htexts : ∀ t ∈ texts, terminator ∉ Utf8.encode t) :
    session { incoming := texts.flatMap framed } =
      (.ok (), { incoming := [], sent := (welcome :: texts.map reply).flatMap framed }) := by
  obtain ⟨limit, hsession⟩ := exists_session_eq htexts []
  generalize (welcome :: texts.map reply).flatMap framed = sent at hsession ⊢
  rw [List.append_nil, answer_of_not_mem (by simp)] at hsession
  exact hsession

theorem receive_greeted :
    greeted.receive = (.ok welcome, { incoming := [], peer := .echo }) := by
  have hincoming : greeted.incoming = framed welcome ++ [] := (List.append_nil _).symm
  rw [Connection.receive_text terminator_not_mem_welcome hincoming]
  rfl

theorem sent_session_nil : (session { incoming := [] }).2.sent = greeted.incoming := by
  have hnone : ∀ t ∈ ([] : List String), terminator ∉ Utf8.encode t := by simp
  have hsession := session_framed hnone
  simp only [List.flatMap_nil, List.map_nil, List.flatMap_cons, List.append_nil] at hsession
  rw [hsession]
  rfl

theorem sent_session_append {texts : List String} {text : String}
    (htexts : ∀ t ∈ texts ++ [text], terminator ∉ Utf8.encode t) :
    (session { incoming := (texts ++ [text]).flatMap framed }).2.sent =
      (session { incoming := texts.flatMap framed }).2.sent ++ Peer.echo.answer text := by
  have hbefore : ∀ t ∈ texts, terminator ∉ Utf8.encode t := by
    intro t ht
    exact htexts t (List.mem_append_left _ ht)
  rw [session_framed htexts, session_framed hbefore]
  simp only [List.map_append, List.map_cons, List.map_nil, List.flatMap_cons, List.flatMap_append,
    List.flatMap_nil, List.append_nil, List.append_assoc]
  rfl

/-- Whatever a peer sends, its messages are answered one by one, up to the first that holds no text.
The server sends the greeting and then one reply to each text: the text, with a backslash before
each of its quotes and backslashes, inside a program that writes it.  The peer can tell all of these
messages apart.  If no message is whole in what comes behind the texts, the server is done; if one
is, it holds no text, and the server fails for that reason and leaves what comes after it alone. -/
theorem session_answers_each_text (incoming : List UInt8) :
    ∃ (texts replies : List String) (rest : List UInt8),
      incoming = texts.flatMap framed ++ rest ∧
      (∀ t ∈ texts, terminator ∉ Utf8.encode t) ∧
      replies = texts.map (fun t => "\"Received: " ++ Message.escape t ++ "\\n\" write") ∧
      (∀ t, (Message.escape t).toList =
        t.toList.flatMap fun c => if c = '\\' ∨ c = '"' then ['\\', c] else [c]) ∧
      (session { incoming }).2.sent = framed welcome ++ replies.flatMap framed ∧
      Message.readAll (session { incoming }).2.sent =
        ((welcome :: replies).map Utf8.encode, []) ∧
      ((terminator ∉ rest ∧ (session { incoming }).1 = .ok ()) ∨
        ∃ message after f, rest = message ++ terminator :: after ∧ terminator ∉ message ∧
          (∀ t, Utf8.encode t ≠ message) ∧
          (session { incoming }).1 = .error f ∧ f.kind = .invalidData ∧
          (session { incoming }).2.incoming = after) := by
  obtain ⟨texts, rest, rfl, htexts, hrest⟩ := Message.exists_texts incoming
  obtain ⟨limit, hsession⟩ := exists_session_eq htexts rest
  have hreplies : ∀ t ∈ welcome :: texts.map reply, terminator ∉ Utf8.encode t := by
    simp only [List.forall_mem_cons, List.forall_mem_map]
    exact ⟨terminator_not_mem_welcome, fun t ht => terminator_not_mem_reply (htexts t ht)⟩
  have hread := Message.readAll_framed hreplies
  have hsent : (welcome :: texts.map reply).flatMap framed =
      framed welcome ++ (texts.map reply).flatMap framed := List.flatMap_cons
  refine ⟨texts, texts.map reply, rest, rfl, htexts, rfl, Message.toList_escape, ?_⟩
  generalize (welcome :: texts.map reply).flatMap framed = sent at hsession hread hsent
  rw [hsession]
  rcases hrest with hrest | ⟨message, after, rfl, hmessage, hnone⟩
  · rw [answer_of_not_mem hrest]
    exact ⟨hsent, hread, .inl ⟨hrest, rfl⟩⟩
  · obtain ⟨defect, hdecode⟩ := Message.exists_defect hnone
    rw [answer_malformed hmessage hdecode rfl]
    exact ⟨hsent, hread, .inr ⟨message, after, _, rfl, hmessage, hnone, rfl, rfl, rfl⟩⟩

/-- A peer that says hello, says nothing and quotes a backslash, and that then stops in the middle of
a message, or sends a message that is no text and one more. -/
theorem session_of_three_texts :
    let bytes := ["hello", "", "say \"\\n\""].flatMap fun t => Utf8.encode t ++ [0]
    let sent := [welcome, "\"Received: hello\\n\" write", "\"Received: \\n\" write",
      "\"Received: say \\\"\\\\n\\\"\\n\" write"].flatMap fun t => Utf8.encode t ++ [0]
    (session { incoming := bytes ++ Utf8.encode "goodb" }).2.sent = sent ∧
      (session { incoming := bytes ++ Utf8.encode "goodb" }).1 = .ok () ∧
      (session { incoming := bytes ++ [195, 0, 104, 105, 0] }).2.sent = sent ∧
      (∃ f, (session { incoming := bytes ++ [195, 0, 104, 105, 0] }).1 = .error f ∧
        f.kind = .invalidData) ∧
      (session { incoming := bytes ++ [195, 0, 104, 105, 0] }).2.incoming = [104, 105, 0] := by
  intro bytes sent
  let said := ["hello", "", "say \"\\n\""]
  have hsaid : ∀ t ∈ said, terminator ∉ Utf8.encode t := by decide
  have hsent : framed welcome ++ (said.map fun t =>
      "\"Received: " ++ Message.escape t ++ "\\n\" write").flatMap framed = sent := by
    have hreplies : (said.map fun t => "\"Received: " ++ Message.escape t ++ "\\n\" write") =
        ["\"Received: hello\\n\" write", "\"Received: \\n\" write",
          "\"Received: say \\\"\\\\n\\\"\\n\" write"] := by
      decide
    rw [hreplies]
    rfl
  have hanswers (rest : List UInt8) (hrest : Message.Textless rest) :
      (session { incoming := bytes ++ rest }).2.sent = sent ∧
        ((terminator ∉ rest ∧ (session { incoming := bytes ++ rest }).1 = .ok ()) ∨
          ∃ message after f, rest = message ++ terminator :: after ∧ terminator ∉ message ∧
            (∀ t, Utf8.encode t ≠ message) ∧
            (session { incoming := bytes ++ rest }).1 = .error f ∧ f.kind = .invalidData ∧
            (session { incoming := bytes ++ rest }).2.incoming = after) := by
    obtain ⟨texts, _, rest', hbytes, htexts, rfl, -, hanswers, -, hend⟩ :=
      session_answers_each_text (bytes ++ rest)
    have hrest' : Message.Textless rest' :=
      hend.imp And.left fun ⟨message, after, _, hrest, hmessage, hnone, _⟩ =>
        ⟨message, after, hrest, hmessage, hnone⟩
    obtain ⟨rfl, rfl⟩ := Message.texts_unique hsaid hrest htexts hrest' hbytes
    exact ⟨hanswers.trans hsent, hend⟩
  have hcut : terminator ∉ Utf8.encode "goodb" := by decide
  have hdecode : Utf8.decode [195] = .error ⟨0, none⟩ := by decide
  have hread : Message.read [195, 0, 104, 105, 0] = (.ok [195], [104, 105, 0]) := by decide
  obtain ⟨hsentCut, ⟨-, hok⟩ | ⟨_, _, _, hrest, -⟩⟩ := hanswers _ (.inl hcut)
  · have hbroken : Message.Textless [195, 0, 104, 105, 0] :=
      .inr ⟨[195], [104, 105, 0], rfl, by decide, Message.encode_ne_of_decode hdecode⟩
    obtain ⟨hsentBroken, ⟨hnone, -⟩ | ⟨_, _, f, hrest, hmessage, -, herror, hkind, hafter⟩⟩ :=
      hanswers _ hbroken
    · exact absurd (by decide) hnone
    · rw [hrest, Message.read_append hmessage, Prod.mk.injEq] at hread
      exact ⟨hsentCut, hok, hsentBroken, ⟨f, herror, hkind⟩, hafter.trans hread.2⟩
  · exact absurd (hrest ▸ List.mem_append_right _ List.mem_cons_self) hcut

end Echo

end StackScript
