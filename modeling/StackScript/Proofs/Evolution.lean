import StackScript.Proofs.Footprint
import StackScript.Proofs.Reachable
/-!
# What time can change

Whatever a machine does, its stack keeps its capacity, its nesting limit stays, and its dictionary
only takes up words with new names (`Machine.Follows`).  What a single token or primitive does keeps
the nesting depth as well (`Machine.Evolves`): only the entry and the end of a text change it.
-/

namespace StackScript

namespace Dictionary

def Distinct (d : Dictionary) : Prop :=
  (d.words.map Word.name).Nodup

/-- The second dictionary comes from the first by adding words with new names. -/
structure Grows (d d' : Dictionary) : Prop where
  suffix : d.words <:+ d'.words
  distinct : d.Distinct → d'.Distinct

theorem Grows.refl (d : Dictionary) : d.Grows d :=
  ⟨List.suffix_refl _, id⟩

theorem Grows.trans {d d' d'' : Dictionary} (h : d.Grows d') (h' : d'.Grows d'') : d.Grows d'' :=
  ⟨h.suffix.trans h'.suffix, h'.distinct ∘ h.distinct⟩

theorem grows_of_define {d d' : Dictionary} {w : Word} (h : d.define w = .ok d') : d.Grows d' := by
  unfold define at h
  split at h
  · cases h
  · rename_i hnone
    cases h
    refine ⟨List.suffix_cons _ _, fun hd => List.nodup_cons.mpr ⟨?_, hd⟩⟩
    intro hmem
    obtain ⟨v, hv, hname⟩ := List.mem_map.mp hmem
    have hne := List.find?_eq_none.mp hnone v hv
    exact hne (by simp [hname])

end Dictionary

namespace Stack

theorem capacity_answer (s : Stack) (v : Value) : (s.answer v).state.capacity = s.capacity := by
  unfold answer
  split
  · rename_i t h
    exact capacity_push h
  · rfl

private theorem capacity_below {s : Stack} {v : Value} {rest : List Value}
    (h : s.values = v :: rest) :
    ({ values := rest, room := s.room + 1 } : Stack).capacity = s.capacity := by
  simp only [capacity, h, List.length_cons]
  omega

private theorem capacity_popAs {α : Type} (expected : Kind) (select : Value → Option α)
    (s : Stack) : (s.popAs expected select).2.capacity = s.capacity := by
  unfold popAs
  split
  · rfl
  · rename_i v rest h
    dsimp only
    split <;> exact capacity_below h

private theorem capacity_popValue (s : Stack) : s.popValue.2.capacity = s.capacity := by
  unfold popValue
  split
  · rename_i h
    exact capacity_pop h
  · rfl

theorem capacity_operand (o : Operand) (s : Stack) : (o.pop s).2.capacity = s.capacity := by
  cases o with
  | value => exact s.capacity_popValue
  | boolean => exact s.capacity_popAs _ _
  | text => exact s.capacity_popAs _ _
  | quotation => exact s.capacity_popAs _ _

private theorem capacity_drop (s : Stack) : s.drop.state.capacity = s.capacity := by
  unfold drop
  split
  · rfl
  · rename_i v rest h
    exact capacity_below h

private theorem capacity_pick (s : Stack) : s.pick.state.capacity = s.capacity := by
  unfold pick
  split
  · rfl
  · rename_i v rest h
    dsimp only
    split
    · split
      · exact capacity_below h
      · split
        · rw [capacity_answer, capacity_below h]
        · exact capacity_below h
    · exact capacity_below h

private theorem capacity_swap (s : Stack) : s.swap.state.capacity = s.capacity := by
  unfold swap
  split
  · rename_i b a rest h
    simp only [Outcome.state, capacity, h, List.length_cons]
  · rfl

private theorem capacity_rot (s : Stack) : s.rot.state.capacity = s.capacity := by
  unfold rot
  split
  · rename_i c b a rest h
    simp only [Outcome.state, capacity, h, List.length_cons]
  · rfl

private theorem capacity_pair (p : Pairing) (s : Stack) :
    (s.pair p).state.capacity = s.capacity := by
  unfold pair
  split
  · rename_i b a rest h
    have hb : ({ values := rest, room := s.room + 2 } : Stack).capacity = s.capacity := by
      simp only [capacity, h, List.length_cons]
      omega
    dsimp only
    split
    · rw [capacity_answer, hb]
    · exact hb
    · exact hb
  · rfl

private theorem capacity_convert (c : Conversion) (s : Stack) :
    (s.convert c).state.capacity = s.capacity := by
  unfold convert
  split
  · rfl
  · rename_i v rest h
    dsimp only
    split
    · rw [capacity_answer, capacity_below h]
    · exact capacity_below h

theorem capacity_apply (s : Stack) (op : Operation) :
    (s.apply op).state.capacity = s.capacity := by
  cases op with
  | drop => exact s.capacity_drop
  | pick => exact s.capacity_pick
  | swap => exact s.capacity_swap
  | rot => exact s.capacity_rot
  | pair p => exact s.capacity_pair p
  | convert c => exact s.capacity_convert c

end Stack

namespace Machine

/-- What time leaves of a machine: the capacity of its stack, its nesting limit, and the words it
knows, to which others are added. -/
structure Follows (m n : Machine) : Prop where
  capacity : n.stack.capacity = m.stack.capacity
  maxNesting : n.maxNesting = m.maxNesting
  dictionary : m.dictionary.Grows n.dictionary

/-- What a token or a primitive leaves of a machine, which enters and ends no text. -/
structure Evolves (m n : Machine) : Prop extends Follows m n where
  depth : n.depth = m.depth

theorem Follows.refl (m : Machine) : m.Follows m :=
  ⟨rfl, rfl, .refl _⟩

theorem Follows.trans {m n k : Machine} (h : m.Follows n) (h' : n.Follows k) : m.Follows k :=
  ⟨h'.capacity.trans h.capacity, h'.maxNesting.trans h.maxNesting, h.dictionary.trans h'.dictionary⟩

theorem Evolves.refl (m : Machine) : m.Evolves m :=
  ⟨.refl m, rfl⟩

theorem Evolves.trans {m n k : Machine} (h : m.Evolves n) (h' : n.Evolves k) : m.Evolves k :=
  ⟨h.toFollows.trans h'.toFollows, h'.depth.trans h.depth⟩

theorem evolves_withStack {m : Machine} {s : Stack} (h : s.capacity = m.stack.capacity) :
    m.Evolves (m.withStack s) :=
  ⟨⟨h, rfl, .refl _⟩, rfl⟩

theorem evolves_answer (m : Machine) (v : Value) : m.Evolves (m.answer v).state := by
  rw [answer, Outcome.state_map]
  exact evolves_withStack (m.stack.capacity_answer v)

theorem evolves_addWord (m : Machine) (w : Word) : m.Evolves (m.addWord w).state := by
  unfold addWord
  split
  · rename_i d h
    exact ⟨⟨rfl, rfl, Dictionary.grows_of_define h⟩, rfl⟩
  · exact .refl m

private theorem evolves_of_changes {uses : Resource → Prop} {m n : Machine} (h : m.Changes uses n)
    (hstack : ¬ uses .stack) (hwords : ¬ uses .words) : m.Evolves n := by
  refine ⟨⟨by rw [h.stack hstack], h.maxNesting, ?_⟩, h.depth⟩
  rw [h.dictionary hwords]
  exact .refl _

private theorem evolves_beginPass (m : Machine) (code : String) (count : Int64) :
    m.Evolves (m.beginPass code count).machine := by
  unfold beginPass
  split
  · exact .refl m
  · rename_i s h
    exact evolves_withStack (Stack.capacity_push h)

private theorem evolves_performRead (m : Machine) : m.Evolves m.performRead.state := by
  have hr : m.Evolves m.readLine.2 := ⟨⟨rfl, rfl, .refl _⟩, rfl⟩
  unfold performRead
  split <;> rename_i h <;> rw [h] at hr
  · exact hr.trans (evolves_answer _ _)
  · exact hr

private theorem evolves_query {α : Type} (q : Query α) (m : Machine) :
    m.Evolves (q.perform m).2 := by
  cases q with
  | operand o => exact evolves_withStack (m.stack.capacity_operand o)
  | _ =>
    exact evolves_of_changes (Query.changes _ m) (by simp [Query.resource])
      (by simp [Query.resource])

private theorem evolves_act (a : Act) (m : Machine) : m.Evolves (a.perform m).machine := by
  cases a with
  | beginPass code count => exact m.evolves_beginPass code count
  | answer v => exact m.evolves_answer v
  | operate op =>
    rw [Act.perform, Effect.machine, Outcome.state_map]
    exact evolves_withStack (m.stack.capacity_apply op)
  | define w => exact m.evolves_addWord w
  | read => exact m.evolves_performRead
  | _ =>
    exact evolves_of_changes (Act.changes _ m) (by simp [Act.resources]) (by simp [Act.resources])

theorem evolves_run (r : Routine) (m : Machine) : m.Evolves (r.run m).machine :=
  r.within_true.preserves .trans (fun q m _ => evolves_query q m) (fun a m _ => evolves_act a m) m

theorem evolves_endPass (m : Machine) (code : String) (count : Int64) :
    m.Evolves (m.endPass code count).machine := by
  rw [← run_again]
  exact evolves_run _ m

theorem evolves_performAction (m : Machine) (action : Action) :
    m.Evolves (action.perform m).machine := by
  rw [← action.run_routine]
  exact evolves_run _ m

theorem evolves_meaning (m : Machine) (t : Token) : m.Evolves (m.meaning t).2.machine := by
  rw [meaning_eq]
  exact evolves_run _ m

theorem evolves_token (m : Machine) (a : Activation) : m.Evolves (m.token a).2.2 := by
  unfold token
  split <;> exact ⟨⟨rfl, rfl, .refl _⟩, rfl⟩

theorem follows_opened (m : Machine) : m.Follows m.opened :=
  ⟨rfl, rfl, .refl _⟩

theorem follows_closed (m : Machine) : m.Follows m.closed :=
  ⟨rfl, rfl, .refl _⟩

theorem follows_start (m : Machine) (calls : List Activation) (a : Activation) :
    m.Follows (m.start calls a).machine := by
  unfold start
  split
  · exact .refl m
  · exact m.follows_opened

theorem follows_proceed (calls : List Activation) (layer : Layer) (effect : Effect) :
    effect.machine.Follows (proceed calls layer effect).machine := by
  cases effect with
  | settled outcome => cases outcome <;> exact .refl _
  | enter code m => exact m.follows_start calls _
  | pass code count m => exact m.follows_start calls _

theorem follows_leave (m : Machine) (calls : List Activation) (entry : Entry) :
    m.Follows (m.leave calls entry).machine := by
  cases entry with
  | outer => exact .refl m
  | call layer => exact .refl m
  | pass layer code count =>
    exact (m.evolves_endPass code count).toFollows.trans (follows_proceed calls layer _)

theorem follows_step (m : Machine) (calls : List Activation) :
    m.Follows (m.step calls).machine := by
  cases calls with
  | nil => exact .refl m
  | cons a calls =>
    have ht := (m.evolves_token a).toFollows
    simp only [step]
    split <;> rename_i h <;> rw [h] at ht
    · exact ht
    · rename_i t b n
      split
      · exact (ht.trans n.follows_closed).trans (n.closed.follows_leave calls b.entry)
      · exact ht.trans ((n.evolves_meaning t).toFollows.trans (follows_proceed _ _ _))

theorem follows_raise (m : Machine) (e : Error) (calls : List Activation) :
    m.Follows (m.raise e calls).machine := by
  cases calls with
  | nil => exact .refl m
  | cons a calls => exact m.follows_closed

private theorem follows_ofOutcome {m : Machine} {o : Outcome Machine} (h : m.Evolves o.state) :
    m.Follows (Progress.ofOutcome o).machine := by
  cases o <;> exact h.toFollows

private theorem follows_popped {α : Type} {m : Machine} {r : Except Cause α × Stack}
    (h : r.2.capacity = m.stack.capacity) : m.Follows (m.popped r).machine := by
  obtain ⟨result, s⟩ := r
  cases result <;> exact (evolves_withStack h).toFollows

theorem follows_accept (m : Machine) (r : Request) : m.Follows (m.accept r).machine := by
  cases r with
  | execute source => exact m.follows_start [] _
  | executeInput => exact m.follows_start [] _
  | call location w =>
    exact (m.evolves_performAction w.action).toFollows.trans (follows_proceed [] _ _)
  | addWord w => exact follows_ofOutcome (m.evolves_addWord w)
  | push v => exact follows_ofOutcome (m.evolves_answer v)
  | pop => exact follows_popped (m.stack.capacity_operand .value)
  | popBoolean => exact follows_popped (m.stack.capacity_operand .boolean)
  | popText => exact follows_popped (m.stack.capacity_operand .text)
  | popQuotation => exact follows_popped (m.stack.capacity_operand .quotation)
  | operate op =>
    apply follows_ofOutcome
    rw [Outcome.state_map]
    exact evolves_withStack (m.stack.capacity_apply op)
  | outside console connection generator clock => exact ⟨rfl, rfl, .refl _⟩

end Machine

namespace Progress

theorem follows_next (p : Progress) : p.machine.Follows p.next.machine := by
  cases p with
  | running m calls => exact m.follows_step calls
  | raising e m calls => exact m.follows_raise e calls
  | halted v m => exact .refl m

/-- What any number of steps and requests can change. -/
theorem Later.follows {p q : Progress} (h : Later p q) : p.machine.Follows q.machine :=
  h.preserves (I := fun q => p.machine.Follows q.machine)
    (fun q hq => hq.trans q.follows_next)
    (fun _ m r _ hm => hm.trans (m.follows_accept r)) (.refl _)

end Progress

end StackScript
