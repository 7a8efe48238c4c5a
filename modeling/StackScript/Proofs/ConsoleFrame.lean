import StackScript.Proofs.InputLines
import StackScript.Proofs.OutputGrowth
import StackScript.Proofs.Variation
/-!
# Runs with another console

Only `read` and `write` use the console.  So a change of the console that makes no difference to
these makes no difference to a run whose texts are held in memory
(`Progress.Private.next_onConsole`).  In particular such a run does not notice that its output was
written to before, and it notices further input only if it asks for a line that its own input does
not end: a run that leaves alone what stands behind its own input is the run without
(`Progress.Private.iterate_extended`).
-/

namespace StackScript

/-- A change of the console makes no difference to what a primitive does with it. -/
def Primitive.Unaware (g : Console → Console) (c : Console) : Primitive → Prop
  | .write => ∀ text, (g c).write text = ((c.write text).1, g (c.write text).2)
  | .read => (g c).readLine = (c.readLine.1, g c.readLine.2)
  | _ => True

namespace Machine

def onConsole (g : Console → Console) (m : Machine) : Machine :=
  { m with console := g m.console }

/-- The machine with another console in the place of its own. -/
def withConsole (console : Console) : Machine → Machine :=
  onConsole fun _ => console

variable {g : Console → Console} {m : Machine}

theorem onConsole_of_eq (h : g m.console = m.console) : m.onConsole g = m := by
  rw [onConsole, h]

theorem start_onConsole (g : Console → Console) (m : Machine) (calls : List Activation)
    (a : Activation) : (m.onConsole g).start calls a = (m.start calls a).map (onConsole g) :=
  Variation.start_apply (g := { console := g }) rfl rfl m calls a

theorem endPass_onConsole (g : Console → Console) (m : Machine) (code : String) (count : Int64) :
    (m.onConsole g).endPass code count = (m.endPass code count).map (onConsole g) :=
  Variation.endPass_apply (g := { console := g }) rfl m code count

theorem meaning_onConsole {t : Token}
    (h : ∀ p, m.primitive? t = some p → p.Unaware g m.console) :
    (m.onConsole g).meaning t = ((m.meaning t).1, (m.meaning t).2.map (onConsole g)) := by
  have hunnoticed : Variation.Unnoticed { console := g } (m.Uses t) (fun _ _ => False) m := by
    constructor
    case stack => exact ⟨.overflow, fun _ _ => False, .refl _, fun _ _ => False.elim⟩
    case define => exact fun _ w => .inl (Variation.define_id _ w)
    case readLine =>
      rintro (hstack | ⟨p, hp, hinput⟩)
      · cases hstack
      · have hunaware := h p hp
        cases p <;> cases hinput
        exact hunaware
    case write =>
      rintro (hstack | ⟨p, hp, houtput⟩)
      · cases hstack
      · have hunaware := h p hp
        cases p <;> cases houtput
        exact fun text => .inl (hunaware text)
  obtain ⟨hlayer, heffect⟩ := hunnoticed.meaning (m.within_meaning t) fun _ _ => rfl
  exact Prod.ext hlayer (heffect.resolve_right id)

theorem layer_onConsole (g : Console → Console) (m : Machine) (t : Token) :
    ((m.onConsole g).meaning t).1 = (m.meaning t).1 := by
  rw [meaning_eq, meaning_eq]
  rfl

theorem proceed_onConsole (g : Console → Console) (calls : List Activation) (layer : Layer)
    (effect : Effect) :
    proceed calls layer (effect.map (onConsole g)) =
      (proceed calls layer effect).map (onConsole g) := by
  cases effect with
  | settled outcome => cases outcome <;> rfl
  | enter code m => exact start_onConsole g m calls _
  | pass code count m => exact start_onConsole g m calls _

theorem leave_onConsole (g : Console → Console) (m : Machine) (calls : List Activation)
    (entry : Entry) :
    (m.onConsole g).leave calls entry = (m.leave calls entry).map (onConsole g) := by
  cases entry with
  | outer => rfl
  | call layer => rfl
  | pass layer code count => rw [leave, leave, endPass_onConsole, proceed_onConsole]

end Machine

namespace Progress

open Machine (onConsole)

variable {p : Progress} {g : Console → Console}

theorem map_private_iff {f : Machine → Machine} : (p.map f).Private ↔ p.Private := by
  cases p <;> rfl

theorem Private.call?_onConsole (hp : p.Private) (g : Console → Console) :
    (p.map (onConsole g)).call? =
      p.call?.map fun call => { call with machine := call.machine.onConsole g } := by
  cases p with
  | halted v m => rfl
  | raising e m calls => rfl
  | running m calls =>
    cases calls with
    | nil => rfl
    | cons a calls =>
      have ha := (List.forall_mem_cons.mp hp).1
      simp only [Progress.map, call?, Machine.token_of_private ha]
      cases a.cursor.token.1 with
      | error cause => rfl
      | ok t =>
        have hprimitive : (m.onConsole g).primitive? t = m.primitive? t := rfl
        simp only [hprimitive, Machine.layer_onConsole, Option.map_map]
        rfl

/-- A change of the console that makes no difference to the next call makes none to the step. -/
theorem Private.next_onConsole (hp : p.Private)
    (h : ∀ call, p.call? = some call → call.primitive.Unaware g call.machine.console) :
    (p.map (onConsole g)).next = p.next.map (onConsole g) := by
  cases p with
  | halted v m => rfl
  | raising e m calls => cases calls <;> rfl
  | running m calls =>
    cases calls with
    | nil => rfl
    | cons a calls =>
      have ha := (List.forall_mem_cons.mp hp).1
      simp only [Progress.call?, Machine.token_of_private ha] at h
      simp only [Progress.map, Progress.next, Machine.step, Machine.token_of_private ha]
      cases htoken : a.cursor.token.1 with
      | error cause => rfl
      | ok t =>
        rw [htoken] at h
        dsimp only at h ⊢
        split
        · exact Machine.leave_onConsole g m.closed calls a.entry
        · have hmeaning : (m.onConsole g).meaning t = _ :=
            Machine.meaning_onConsole fun primitive hfound => h _ (by rw [hfound]; rfl)
          rw [Machine.obey, hmeaning]
          exact Machine.proceed_onConsole g _ _ _

theorem Private.console_next (hp : p.Private) :
    p.next.machine.console =
      match p.call? with
      | some call => (call.primitive.perform call.machine).machine.console
      | none => p.machine.console := by
  cases hcall : p.call? with
  | none =>
    have hfixed : p.map (onConsole fun _ => p.machine.console) = p := by
      cases p <;> rfl
    have hnext := hp.next_onConsole (g := fun _ => p.machine.console) (by simp [hcall])
    rw [hfixed] at hnext
    rw [hnext, machine_map]
    rfl
  | some call =>
    obtain ⟨hnext, -⟩ := next_of_call? hcall
    rw [hnext, Call.next, Machine.console_proceed]

end Progress

namespace Machine

variable {m : Machine}

theorem Unlimited.write_eq (h : m.Unlimited) (text : String) :
    m.write text =
      (.ok (), m.onConsole fun c => { c with sink := c.sink.add (Utf8.encode text) }) := by
  rw [write, Console.write, Sink.write_of_unlimited h]
  rfl

end Machine

/-- The console with more input behind its own, and with output that was written earlier. -/
def Console.extended (rest earlier : List UInt8) (c : Console) : Console where
  input := c.input ++ rest
  sink := { c.sink with written := c.sink.written ++ earlier }

namespace Console

variable {rest : List UInt8} {c : Console}

theorem write_extended (rest earlier : List UInt8) (c : Console) (text : String) :
    (c.extended rest earlier).write text =
      ((c.write text).1, (c.write text).2.extended rest earlier) := by
  obtain ⟨input, written, room⟩ := c
  cases room with
  | none => simp [write, Sink.write, extended]
  | some room =>
    by_cases hfits : (Utf8.encode text).length ≤ room
    · simp [write, Sink.write, extended, hfits]
    · simp [write, Sink.write, extended, hfits]

theorem readLine_extended (earlier : List UInt8) (h : rest = [] ∨ 10 ∈ c.input) :
    (c.extended rest earlier).readLine =
      (c.readLine.1, c.readLine.2.extended rest earlier) := by
  rw [readLine_eq, readLine_eq]
  rcases h with rfl | hmem
  · simp only [extended, List.append_nil]
    cases cutLines c.input <;> simp
  · obtain ⟨line, tail, hinput, hline⟩ := List.eq_append_cons_of_mem hmem
    simp [extended, hinput, cutLines_append hline, flatten_cutLines]

theorem length_readLine_extended_lt (earlier : List UInt8) (hrest : rest ≠ []) (h : 10 ∉ c.input) :
    (c.extended rest earlier).readLine.2.input.length < rest.length := by
  rw [readLine_eq]
  induction rest using line_induction with
  | nil => exact absurd rfl hrest
  | last line hline hne =>
    have hnone : 10 ∉ c.input ++ line := by
      simp [h, hline]
    rw [extended, cutLines_of_not_mem hnone (by simp [hne])]
    exact List.length_pos_of_ne_nil hne
  | line line tail hline _ =>
    have hnone : 10 ∉ c.input ++ line := by
      simp [h, hline]
    rw [extended, ← List.append_assoc, cutLines_append hnone]
    simp only [flatten_cutLines, List.length_append, List.length_cons]
    omega

theorem unaware_extended {p : Primitive} (earlier : List UInt8)
    (h : p = .read → rest = [] ∨ 10 ∈ c.input) : p.Unaware (extended rest earlier) c := by
  cases p with
  | write => exact c.write_extended rest earlier
  | read => exact readLine_extended earlier (h rfl)
  | _ => trivial

end Console

namespace Machine

def extended (rest earlier : List UInt8) : Machine → Machine :=
  onConsole (Console.extended rest earlier)

end Machine

namespace Progress

open Machine (extended withConsole)

variable {p : Progress} {rest earlier : List UInt8} {n : Nat}

/-- The calls of `read` among the first steps find a whole line. -/
def ReadsWhole (p : Progress) (n : Nat) : Prop :=
  ∀ call ∈ p.callsIn n, call.primitive = .read → 10 ∈ call.machine.console.input

theorem Private.iterate_extended_of_readsWhole (hp : p.Private) (h : rest = [] ∨ p.ReadsWhole n) :
    Progress.next^[n] (p.map (extended rest earlier)) =
      (Progress.next^[n] p).map (extended rest earlier) := by
  induction n generalizing p with
  | zero => rfl
  | succ n ih =>
    have hnext : (p.map (extended rest earlier)).next = p.next.map (extended rest earlier) := by
      apply hp.next_onConsole
      intro call hcall
      apply Console.unaware_extended
      intro hread
      exact h.imp_right fun hwhole => hwhole call (by simp [callsIn, hcall]) hread
    rw [Function.iterate_succ_apply, hnext]
    apply ih hp.next
    refine h.imp_right fun hwhole call hcall => ?_
    exact hwhole call (List.mem_append_right _ hcall)

theorem Private.length_next_extended_lt (hp : p.Private) (hrest : rest ≠ []) {call : Call}
    (hcall : p.call? = some call) (hread : call.primitive = .read)
    (h : 10 ∉ call.machine.console.input) :
    (p.map (extended rest earlier)).next.machine.console.input.length < rest.length := by
  have hextended := hp.call?_onConsole (Console.extended rest earlier)
  rw [hcall] at hextended
  have hconsole := (map_private_iff.mpr hp).console_next (p := p.map (extended rest earlier))
  rw [extended, hextended] at hconsole
  simp only [Option.map_some, hread] at hconsole
  have hread := Machine.console_performRead (call.machine.onConsole (Console.extended rest earlier))
  rw [extended, hconsole]
  exact hread ▸ Console.length_readLine_extended_lt earlier hrest h

theorem Private.readsWhole_of_length_le (hp : p.Private) (hrest : rest ≠ [])
    (h : rest.length ≤
      (Progress.next^[n] (p.map (extended rest earlier))).machine.console.input.length) :
    p.ReadsWhole n := by
  induction n generalizing p with
  | zero =>
    intro call hcall
    cases hcall
  | succ n ih =>
    rw [Function.iterate_succ_apply] at h
    have hfirst : ∀ call, p.call? = some call → call.primitive = .read →
        10 ∈ call.machine.console.input := by
      intro call hcall hread
      by_contra hnone
      have hlt : (p.map (extended rest earlier)).next.machine.console.input.length < rest.length :=
        hp.length_next_extended_lt hrest hcall hread hnone
      rw [(map_private_iff.mpr hp).next.input_run n, List.length_append] at hlt
      omega
    have hnext : (p.map (extended rest earlier)).next = p.next.map (extended rest earlier) := by
      apply hp.next_onConsole
      intro call hcall
      apply Console.unaware_extended
      intro hread
      exact .inr (hfirst call hcall hread)
    rw [hnext] at h
    intro call hcall hread
    rw [callsIn, List.mem_append, Option.mem_toList] at hcall
    rcases hcall with hcall | hcall
    · exact hfirst call hcall hread
    · exact ih hp.next h call hcall hread

/-- A run that leaves alone what stands behind its own input is the run without. -/
theorem Private.iterate_extended (hp : p.Private)
    (h : rest.length ≤
      (Progress.next^[n] (p.map (extended rest earlier))).machine.console.input.length) :
    Progress.next^[n] (p.map (extended rest earlier)) =
        (Progress.next^[n] p).map (extended rest earlier) ∧
      (rest = [] ∨ p.ReadsWhole n) := by
  have hwhole : rest = [] ∨ p.ReadsWhole n := by
    by_cases hrest : rest = []
    · exact .inl hrest
    · exact .inr (hp.readsWhole_of_length_le hrest h)
  exact ⟨hp.iterate_extended_of_readsWhole hwhole, hwhole⟩

/-- With the lines it takes, and with any bytes behind these, a run does what it did.  Only if it
has come to the end of its input there must be nothing behind. -/
theorem Private.exists_iterate_withConsole (hp : p.Private) (hroom : p.machine.Unlimited)
    {v : Verdict} {m : Machine} (h : Progress.next^[n] p = .halted v m) :
    ∃ written, m.console.sink = p.machine.console.sink.add written ∧
      ∀ (rest : List UInt8) (sink : Sink), sink.room = none → (m.console.input = [] → rest = []) →
        Progress.next^[n] (p.map (withConsole
            ⟨((p.callsIn n).filterMap Call.line?).flatten ++ rest, sink⟩)) =
          .halted v (m.withConsole ⟨rest, sink.add written⟩) := by
  let lines : List UInt8 := ((p.callsIn n).filterMap Call.line?).flatten
  let q : Progress := p.map (withConsole ⟨lines, {}⟩)
  have hq : q.Private := map_private_iff.mpr hp
  have hmap (rest : List UInt8) (sink : Sink) (hsink : sink.room = none) :
      q.map (extended rest sink.written) = p.map (withConsole ⟨lines ++ rest, sink⟩) := by
    obtain ⟨written, room⟩ := sink
    subst hsink
    cases p <;> rfl
  have hself : p.map (withConsole p.machine.console) = p := by
    cases p <;> rfl
  have hp_eq : q.map (extended m.console.input p.machine.console.sink.written) = p := by
    have hinput : p.machine.console.input = lines ++ m.console.input := by
      have hrun := hp.input_run n
      rwa [h] at hrun
    rw [hmap _ _ hroom, ← hinput]
    exact hself
  have hle : m.console.input.length ≤ (Progress.next^[n] (q.map (extended m.console.input
      p.machine.console.sink.written))).machine.console.input.length := by
    rw [hp_eq, h]
    exact Nat.le_refl _
  obtain ⟨hiterate, hwhole⟩ := hq.iterate_extended hle
  have hunlimited : (Progress.next^[n] q).machine.Unlimited := by
    apply unlimited_iterate
    rw [machine_map]
    rfl
  rw [hp_eq, h] at hiterate
  obtain ⟨k, hend, hm⟩ := exists_of_map_eq_halted hiterate.symm
  have hnone : k.console.sink.room = none := by
    rw [hend] at hunlimited
    exact hunlimited
  have hinput : k.console.input = [] := by
    have hagain : m.console.input = k.console.input ++ m.console.input :=
      congrArg (fun m : Machine => m.console.input) hm
    exact List.append_left_eq_self.mp hagain.symm
  have hextended (rest : List UInt8) (sink : Sink) (hsink : sink.room = none) :
      k.console.extended rest sink.written = ⟨rest, sink.add k.console.sink.contents⟩ := by
    simp [Console.extended, Sink.add, Sink.contents, hinput, hnone, hsink]
  refine ⟨k.console.sink.contents, ?_, ?_⟩
  · calc m.console.sink
      _ = (k.console.extended m.console.input p.machine.console.sink.written).sink :=
        congrArg (fun m : Machine => m.console.sink) hm
      _ = p.machine.console.sink.add k.console.sink.contents := by rw [hextended _ _ hroom]
  · intro rest sink hsink hrest
    have hwith (console : Console) : m.withConsole console = k.withConsole console := by
      rw [hm]
      rfl
    rw [← hmap rest sink hsink, hq.iterate_extended_of_readsWhole (hwhole.imp_left hrest), hend,
      hwith, ← hextended rest sink hsink]
    rfl

end Progress

end StackScript
