import Sponge.EventLoop
import Sponge.Lib.Path

/-!
# The rules of an event loop over many calls

A `Registry` is what the list of rules is for.  Rules join it at the end.  In a call of
`wait_next_event` each rule is asked for its interest, `poll` answers for each rule, and then a rule
is called back if the answer is what it asked for.  A rule leaves only when its function `cancel` is
called, and that happens only if its file is at its end or closed, or if the answer for this rule is
a hang-up.  The registry keeps account of every rule that ever joined or left.

`rules_accounted` says that `wait_next_event`, with its two loops over a list that changes while
they go along it and an index into the list of `pollfd`s, does nothing else to the rules, in any
number of calls, and calls no other functions.
-/

namespace Sponge

open Transition

variable {κ σ β : Type}

/-! ## The registry -/

/-- A rule, and its `pollfd` in the present call. -/
structure Entry (κ : Type) where
  rule : Rule κ
  fd : Int
  events : UInt16
  revents : UInt16

namespace Entry

/-- Nothing was asked yet; `poll` ignores a negative number. -/
def ofRule (rule : Rule κ) : Entry κ := ⟨rule, -1, 0, 0⟩

/-- What is asked for, if the rule is interested or not. -/
def ask (P : Program κ σ) (s : σ) (interested : Bool) (e : Entry κ) : Entry κ where
  rule := e.rule
  fd := (P.file s e.rule.fd).fd
  events := if interested then e.rule.direction.events else 0
  revents := 0

/-- The answer has what was asked for. -/
def Ready (e : Entry κ) : Prop := e.revents &&& e.events ≠ 0

/-- Something was asked for, and the answer does not have it, but is a hang-up. -/
def HungUp (e : Entry κ) : Prop := e.revents &&& pollHup ≠ 0 ∧ e.events ≠ 0 ∧ ¬ e.Ready

instance (e : Entry κ) : Decidable e.Ready := inferInstanceAs (Decidable (_ ≠ _))

instance (e : Entry κ) : Decidable e.HungUp := inferInstanceAs (Decidable (_ ∧ _ ∧ _))

end Entry

/-- A rule whose file is at its end, for reading, or is closed. -/
def Rule.Finished (P : Program κ σ) (s : σ) (rule : Rule κ) : Prop :=
  rule.direction = .In ∧ (P.file s rule.fd).eof = true ∨ (P.file s rule.fd).closed = true

instance (P : Program κ σ) (s : σ) (rule : Rule κ) : Decidable (rule.Finished P s) :=
  inferInstanceAs (Decidable (_ ∨ _))

/-- The entry of a rule that left, and the state in which its `cancel` was called. -/
structure Departure (κ σ : Type) where
  entry : Entry κ
  state : σ

/-- The rules at present and the state of the program; in the present call of `wait_next_event`,
what `poll` answers and whether it has been called; and all the rules that ever joined or left. -/
structure Registry (κ σ : Type) where
  entries : List (Entry κ)
  state : σ
  answer : Nat → UInt16
  polled : Bool
  joined : List (Rule κ)
  left : List (Departure κ σ)

/-- The program adds a rule, does something else to the state, or calls `wait_next_event`, where
`poll` will give this answer.  During the call the `i`-th rule is asked for its interest, `poll` is
called, and the functions of the `i`-th rule are called. -/
inductive RuleEvent (κ σ : Type)
  | add (rule : Rule κ)
  | other (s : σ)
  | wait (answer : Nat → UInt16)
  | prepare (i : Nat)
  | poll
  | callback (i : Nat)
  | interest (i : Nat)
  | cancel (i : Nat)

/-- What the program does by itself, and not the event loop. -/
def RuleEvent.own : RuleEvent κ σ → Option (RuleEvent κ σ)
  | .add rule => some (.add rule)
  | .other s => some (.other s)
  | .wait answer => some (.wait answer)
  | _ => none

namespace Registry

def start (rules : List (Rule κ)) (s : σ) : Registry κ σ where
  entries := rules.map Entry.ofRule
  state := s
  answer := fun _ => 0
  polled := false
  joined := rules
  left := []

def rules (r : Registry κ σ) : List (Rule κ) := r.entries.map Entry.rule

/-- Rules join, and the state is now `s`. -/
def register (r : Registry κ σ) (rules : List (Rule κ)) (s : σ) : Registry κ σ :=
  { r with
    entries := r.entries ++ rules.map Entry.ofRule
    state := s
    joined := r.joined ++ rules }

/-- The `i`-th rule leaves. -/
def remove (r : Registry κ σ) (i : Nat) (e : Entry κ) : Registry κ σ :=
  { r with
    entries := r.entries.eraseIdx i
    left := ⟨e, r.state⟩ :: r.left }

/-- The `pollfd` of the `i`-th rule is made, unless its function threw an exception. -/
def ask (P : Program κ σ) (r : Registry κ σ) (i : Nat) (reply : Reply κ σ) : Registry κ σ :=
  match reply.result with
  | .ok interested =>
    { r with entries := r.entries.modify i (Entry.ask P reply.state interested) }
  | .error _ => r

/-- `poll` answers for each rule. -/
def hear (r : Registry κ σ) : Registry κ σ :=
  { r with
    entries := r.entries.mapIdx fun i e => { e with revents := r.answer i }
    polled := true }

/-- A rule may be cancelled before `poll` if it is finished, and after it if it has hung up. -/
def Cancellable (P : Program κ σ) (r : Registry κ σ) (e : Entry κ) : Prop :=
  r.polled = false ∧ e.rule.Finished P r.state ∨ r.polled = true ∧ e.HungUp

instance (P : Program κ σ) (r : Registry κ σ) (e : Entry κ) : Decidable (r.Cancellable P e) :=
  inferInstanceAs (Decidable (_ ∨ _))

/-- A function that is called may register further rules.  A rule leaves when its `cancel`
returns. -/
def step (P : Program κ σ) (r : Registry κ σ) : RuleEvent κ σ → Option (Registry κ σ)
  | .add rule => some (r.register [rule] r.state)
  | .other s => some { r with state := s }
  | .wait answer => some { r with entries := r.rules.map Entry.ofRule, answer, polled := false }
  | .prepare i => r.entries[i]?.bind fun e =>
    if r.polled ∨ e.rule.Finished P r.state then none
    else
      let reply := P.call e.rule.interest r.state
      some ((r.ask P i reply).register reply.registered reply.state)
  | .poll => if r.polled then none else some r.hear
  | .callback i => r.entries[i]?.bind fun e =>
    if e.Ready then
      let reply := P.call e.rule.callback r.state
      some (r.register reply.registered reply.state)
    else none
  | .interest i => r.entries[i]?.bind fun e =>
    if e.Ready then
      let reply := P.call e.rule.interest r.state
      some (r.register reply.registered reply.state)
    else none
  | .cancel i => r.entries[i]?.bind fun e =>
    if r.Cancellable P e then
      let reply := P.call e.rule.cancel r.state
      match reply.result with
      | .ok _ => some ((r.remove i e).register reply.registered reply.state)
      | .error _ => some (r.register reply.registered reply.state)
    else none

/-! ## The account of the rules -/

/-- The word is an answer of `poll` in one of the calls, or nothing was answered. -/
def Answered (es : List (RuleEvent κ σ)) (revents : UInt16) : Prop :=
  revents ≠ 0 → ∃ answer i, RuleEvent.wait answer ∈ es ∧ revents = answer i

/-- After the events `es` the rules are those that joined, in that order, without those that left,
and these had a reason to leave. -/
structure Accounted (P : Program κ σ) (es : List (RuleEvent κ σ)) (r : Registry κ σ) : Prop where
  order : r.rules.Sublist r.joined
  perm : r.joined.Perm (r.rules ++ r.left.map fun d => d.entry.rule)
  answer : ∀ i, Answered es (r.answer i)
  revents : ∀ e ∈ r.entries, Answered es e.revents
  reason : ∀ d ∈ r.left,
    d.entry.rule.Finished P d.state ∨ d.entry.HungUp ∧ Answered es d.entry.revents

variable {P : Program κ σ} {es : List (RuleEvent κ σ)} {r r' : Registry κ σ}

theorem answered_zero (es : List (RuleEvent κ σ)) : Answered es 0 := fun h => absurd rfl h

theorem map_rule_ofRule (rules : List (Rule κ)) :
    (rules.map Entry.ofRule).map Entry.rule = rules := by
  rw [List.map_map]
  exact List.map_id _

theorem rules_register (r : Registry κ σ) (rules : List (Rule κ)) (s : σ) :
    (r.register rules s).rules = r.rules ++ rules := by
  rw [Registry.rules, register, List.map_append, map_rule_ofRule]
  rfl

theorem rules_hear (r : Registry κ σ) : r.hear.rules = r.rules := by
  refine List.ext_getElem? fun i => ?_
  rw [Registry.rules, Registry.rules, hear, List.getElem?_map, List.getElem?_map,
    List.getElem?_mapIdx]
  cases r.entries[i]? <;> rfl

theorem answered_ofRule {rules : List (Rule κ)} :
    ∀ e ∈ rules.map Entry.ofRule, Answered es e.revents := by
  intro e he
  obtain ⟨rule, -, rfl⟩ := List.mem_map.mp he
  exact answered_zero es

/-- The rule of an entry that is changed in place stays. -/
theorem map_rule_modify (entries : List (Entry κ)) (i : Nat) {f : Entry κ → Entry κ}
    (hf : ∀ e, (f e).rule = e.rule) :
    (entries.modify i f).map Entry.rule = entries.map Entry.rule := by
  refine List.ext_getElem? fun j => ?_
  rw [List.getElem?_map, List.getElem?_map, List.getElem?_modify]
  cases entries[j]? with
  | none => rfl
  | some e =>
    by_cases hij : i = j
    · simp [hij, hf]
    · simp [hij]

namespace Accounted

theorem start (P : Program κ σ) (rules : List (Rule κ)) (s : σ) :
    (start rules s).Accounted P [] := by
  have hrules : (Registry.start rules s).rules = rules := map_rule_ofRule rules
  refine ⟨?_, ?_, fun _ => answered_zero [], answered_ofRule, nofun⟩
  · rw [hrules]
    exact List.Sublist.refl _
  · rw [hrules]
    exact List.Perm.of_eq (List.append_nil _).symm

theorem mono (h : r.Accounted P es) (e : RuleEvent κ σ) : r.Accounted P (es ++ [e]) := by
  have hmono : ∀ {w}, Answered es w → Answered (es ++ [e]) w := fun hw hne => by
    obtain ⟨answer, i, hmem, heq⟩ := hw hne
    exact ⟨answer, i, List.mem_append_left _ hmem, heq⟩
  exact ⟨h.order, h.perm, fun i => hmono (h.answer i), fun e he => hmono (h.revents e he),
    fun d hd => (h.reason d hd).imp_right fun hhup => ⟨hhup.1, hmono hhup.2⟩⟩

/-- Other `pollfd`s for the same rules. -/
theorem of_rules (h : r.Accounted P es) (hrules : r'.rules = r.rules)
    (hjoined : r'.joined = r.joined) (hleft : r'.left = r.left)
    (hanswer : ∀ i, Answered es (r'.answer i))
    (hrevents : ∀ e ∈ r'.entries, Answered es e.revents) : r'.Accounted P es := by
  refine ⟨?_, ?_, hanswer, hrevents, ?_⟩
  · rw [hrules, hjoined]
    exact h.order
  · rw [hrules, hjoined, hleft]
    exact h.perm
  · rw [hleft]
    exact h.reason

theorem register (h : r.Accounted P es) (rules : List (Rule κ)) (s : σ) :
    (r.register rules s).Accounted P es := by
  refine ⟨?_, ?_, h.answer, ?_, h.reason⟩
  · rw [rules_register]
    exact h.order.append_right rules
  · rw [rules_register]
    refine (h.perm.append_right rules).trans ?_
    rw [List.append_assoc, List.append_assoc]
    exact List.perm_append_comm.append_left r.rules
  · exact List.forall_mem_append.mpr ⟨h.revents, answered_ofRule⟩

theorem remove (h : r.Accounted P es) {i : Nat} {e : Entry κ} (hi : r.entries[i]? = some e)
    (hwhy : r.Cancellable P e) : (r.remove i e).Accounted P es := by
  obtain ⟨hlt, heq⟩ := List.getElem?_eq_some_iff.mp hi
  have hsub := List.eraseIdx_sublist r.entries i
  refine ⟨(hsub.map Entry.rule).trans h.order, ?_, h.answer,
    fun e he => h.revents e (hsub.subset he), List.forall_mem_cons.mpr ⟨?_, h.reason⟩⟩
  · have hsplit : r.entries = r.entries.take i ++ e :: r.entries.drop (i + 1) := by
      rw [← heq, ← List.drop_eq_getElem_cons hlt, List.take_append_drop]
    have hperm : r.entries.Perm (e :: r.entries.eraseIdx i) := by
      rw [List.eraseIdx_eq_take_drop_succ]
      exact (List.Perm.of_eq hsplit).trans List.perm_middle
    exact h.perm.trans (((hperm.map Entry.rule).append_right _).trans List.perm_middle.symm)
  · have hans := h.revents e (List.mem_of_getElem? hi)
    exact hwhy.imp (fun hfin => hfin.2) fun hhup => ⟨hhup.2, hans⟩

theorem ask (h : r.Accounted P es) (i : Nat) (reply : Reply κ σ) :
    (r.ask P i reply).Accounted P es := by
  unfold Registry.ask
  split
  · refine h.of_rules (map_rule_modify _ _ fun _ => rfl) rfl rfl h.answer fun e he => ?_
    obtain ⟨j, hj⟩ := List.mem_iff_getElem?.mp he
    rw [List.getElem?_modify] at hj
    obtain ⟨e', he', hj⟩ := Option.map_eq_some_iff.mp hj
    split at hj
    · subst hj
      exact answered_zero es
    · subst hj
      exact h.revents _ (List.mem_of_getElem? he')
  · exact h

theorem step {e : RuleEvent κ σ} (h : r.Accounted P es) (hs : r.step P e = some r') :
    r'.Accounted P (es ++ [e]) := by
  have h := h.mono e
  cases e with
  | add rule =>
    obtain rfl := Option.some.inj hs
    exact h.register _ _
  | other s =>
    obtain rfl := Option.some.inj hs
    exact h.of_rules rfl rfl rfl h.answer h.revents
  | wait answer =>
    obtain rfl := Option.some.inj hs
    exact h.of_rules (map_rule_ofRule r.rules) rfl rfl
      (fun i _ => ⟨answer, i, List.mem_append_right _ (List.mem_singleton_self _), rfl⟩)
      answered_ofRule
  | prepare i =>
    obtain ⟨e, -, hs⟩ := Option.bind_eq_some_iff.mp hs
    split at hs
    · cases hs
    · obtain rfl := Option.some.inj hs
      exact (h.ask i _).register _ _
  | poll =>
    rw [Registry.step] at hs
    split at hs
    · cases hs
    · obtain rfl := Option.some.inj hs
      refine h.of_rules r.rules_hear rfl rfl h.answer fun e he => ?_
      obtain ⟨i, hi, rfl⟩ := List.mem_mapIdx.mp he
      exact h.answer i
  | callback i | interest i =>
    obtain ⟨e, -, hs⟩ := Option.bind_eq_some_iff.mp hs
    split at hs
    · obtain rfl := Option.some.inj hs
      exact h.register _ _
    · cases hs
  | cancel i =>
    obtain ⟨e, hi, hs⟩ := Option.bind_eq_some_iff.mp hs
    split at hs
    case isTrue hwhy =>
      dsimp only at hs
      split at hs
      · obtain rfl := Option.some.inj hs
        exact (h.remove hi hwhy).register _ _
      · obtain rfl := Option.some.inj hs
        exact h.register _ _
    case isFalse => cases hs

end Accounted

end Registry

/-! ## What is done with one rule -/

/-- What becomes of an entry: it is updated, or erased, or left as it is after an exception. -/
def Handled.kept (update : β → Entry κ → Entry κ) (h : Handled κ σ β) (e : Entry κ) :
    List (Entry κ) :=
  match h.result with
  | .ok none => []
  | .ok (some b) => [update b e]
  | .error _ => [e]

/-- What is done with the rule of an entry is something that the registry allows, before or after
`poll`. -/
def Handled.Legal (P : Program κ σ) (update : β → Entry κ → Entry κ) (polled : Bool) (e : Entry κ)
    (s : σ) (h : Handled κ σ β) : Prop :=
  ∀ (r : Registry κ σ) (front back : List (Entry κ)), r.state = s → r.polled = polled →
    r.entries = front ++ e :: back →
    Leads (Registry.step P) RuleEvent.own r fun r' =>
      r'.state = h.state ∧ r'.polled = r.polled ∧ r'.answer = r.answer ∧
        r'.entries = front ++ h.kept update e ++ (back ++ h.registered.map Entry.ofRule)

section

variable {update : β → Entry κ → Entry κ} {h : Handled κ σ β}

theorem Handled.kept_erased (hresult : h.result = .ok none) (e : Entry κ) :
    h.kept update e = [] := by
  rw [kept, hresult]

theorem Handled.kept_updated {b : β} (hresult : h.result = .ok (some b)) (e : Entry κ) :
    h.kept update e = [update b e] := by
  rw [kept, hresult]

theorem Handled.kept_thrown {ex : Exception} (hresult : h.result = .error ex) (e : Entry κ) :
    h.kept update e = [e] := by
  rw [kept, hresult]

/-- An entry that stays is as before if nothing is to be updated. -/
theorem Handled.kept_of_stays (hstays : h.stays = true) (e : Entry κ) :
    h.kept (fun _ e => e) e = [e] := by
  cases hresult : h.result with
  | error ex => exact kept_thrown hresult e
  | ok o =>
    cases o with
    | none =>
      rw [stays, hresult] at hstays
      cases hstays
    | some b => exact kept_updated hresult e

/-- Only the `pollfd` of an entry may change. -/
theorem Handled.map_rule_kept {e : Entry κ} (hupdate : ∀ b, (update b e).rule = e.rule) :
    (h.kept update e).map Entry.rule = if h.stays then [e.rule] else [] := by
  rw [stays]
  cases hresult : h.result with
  | error ex => rw [kept_thrown hresult]; rfl
  | ok o =>
    cases o with
    | none => rw [kept_erased hresult]; rfl
    | some b => rw [kept_updated hresult, List.map_singleton, hupdate]; rfl

end

namespace Registry

variable {r : Registry κ σ} {front back : List (Entry κ)} {e : Entry κ}

theorem getElem?_entries (h : r.entries = front ++ e :: back) :
    r.entries[front.length]? = some e := by
  rw [h, List.getElem?_append_right (Nat.le_refl _), Nat.sub_self]
  rfl

theorem entries_register (h : r.entries = front ++ e :: back) (rules : List (Rule κ)) (s : σ) :
    (r.register rules s).entries = front ++ e :: (back ++ rules.map Entry.ofRule) := by
  rw [register, h, List.append_assoc, List.cons_append]

theorem entries_remove (h : r.entries = front ++ e :: back) :
    (r.remove front.length e).entries = front ++ back := by
  rw [remove, h, List.eraseIdx_append_of_length_le (Nat.le_refl _), Nat.sub_self,
    List.eraseIdx_zero, List.tail_cons]

theorem polled_ask (P : Program κ σ) (r : Registry κ σ) (i : Nat) (reply : Reply κ σ) :
    (r.ask P i reply).polled = r.polled := by
  unfold ask
  split <;> rfl

theorem answer_ask (P : Program κ σ) (r : Registry κ σ) (i : Nat) (reply : Reply κ σ) :
    (r.ask P i reply).answer = r.answer := by
  unfold ask
  split <;> rfl

theorem entries_ask {P : Program κ σ} {reply : Reply κ σ} {interested : Bool}
    (h : r.entries = front ++ e :: back) (hreply : reply.result = .ok interested) :
    (r.ask P front.length reply).entries =
      front ++ Entry.ask P reply.state interested e :: back := by
  simp only [ask, hreply, h, List.modify_eq_take_drop, List.take_left', List.drop_left',
    List.modifyHead_cons]

end Registry

namespace Program

open Registry

variable {P : Program κ σ} {e : Entry κ} {s : σ}

/-- A rule with a reason may be cancelled. -/
theorem cancelRule_legal (update : β → Entry κ → Entry κ) (polled : Bool)
    (hwhy : polled = false ∧ e.rule.Finished P s ∨ polled = true ∧ e.HungUp) :
    (P.cancelRule e.rule s : Handled κ σ β).Legal P update polled e s := by
  rintro r front back rfl rfl hentries
  generalize hreply : P.call e.rule.cancel r.state = reply
  have hcancel : (P.cancelRule e.rule r.state : Handled κ σ β) =
      ⟨reply.result.map fun _ => none, reply.state, reply.registered⟩ := by rw [← hreply]; rfl
  have hstep : r.step P (.cancel front.length) =
      match reply.result with
      | .ok _ => some ((r.remove front.length e).register reply.registered reply.state)
      | .error _ => some (r.register reply.registered reply.state) := by
    rw [step, getElem?_entries hentries, Option.bind_some, ← hreply]
    exact if_pos hwhy
  rw [hcancel]
  cases hresult : reply.result with
  | ok b =>
    rw [hresult] at hstep
    refine Leads.single hstep rfl ⟨rfl, rfl, rfl, ?_⟩
    rw [Handled.kept_erased rfl, List.append_nil, ← List.append_assoc, ← entries_remove hentries]
    rfl
  | error ex =>
    -- the rule stays
    rw [hresult] at hstep
    refine Leads.single hstep rfl ⟨rfl, rfl, rfl, ?_⟩
    rw [Handled.kept_thrown rfl, entries_register hentries, List.append_assoc]
    rfl

/-- Setting up a rule asks for its interest, or cancels it. -/
theorem prepare_legal :
    (P.prepare e.rule s).Legal P (Entry.ask P (P.prepare e.rule s).state) false e s := by
  generalize hupdate : Entry.ask P (P.prepare e.rule s).state = update
  unfold prepare
  split
  case isTrue heof => exact cancelRule_legal _ false (Or.inl ⟨rfl, Or.inl heof⟩)
  case isFalse hneof =>
    split
    case isTrue hclosed => exact cancelRule_legal _ false (Or.inl ⟨rfl, Or.inr hclosed⟩)
    case isFalse hopen =>
      rintro r front back rfl hpolled hentries
      obtain rfl : Entry.ask P (P.call e.rule.interest r.state).state = update := by
        rw [← hupdate, prepare, if_neg hneof, if_neg hopen]
      have hnot : ¬ (r.polled = true ∨ e.rule.Finished P r.state) := by
        rw [hpolled]
        rintro (h | h | h)
        · cases h
        · exact hneof h
        · exact hopen h
      dsimp only
      generalize hreply : P.call e.rule.interest r.state = reply
      have hstep : r.step P (.prepare front.length) =
          some ((r.ask P front.length reply).register reply.registered reply.state) := by
        rw [step, getElem?_entries hentries, Option.bind_some, if_neg hnot, ← hreply]
      cases hresult : reply.result with
      | error ex =>
        have hask : r.ask P front.length reply = r := by rw [Registry.ask, hresult]
        rw [hask] at hstep
        refine Leads.single hstep rfl ⟨rfl, rfl, rfl, ?_⟩
        rw [Handled.kept_thrown rfl, entries_register hentries, List.append_assoc]
        rfl
      | ok b =>
        refine Leads.single hstep rfl ⟨rfl, polled_ask .., answer_ask .., ?_⟩
        rw [Handled.kept_updated rfl, entries_register (entries_ask hentries hresult),
          List.append_assoc]
        rfl

/-- Serving a rule calls its callback, and then perhaps asks for its interest. -/
theorem serve_cases (P : Program κ σ) (rule : Rule κ) (s : σ) :
    let called := P.call rule.callback s
    let asked := P.call rule.interest called.state
    (P.serve rule s).stays = true ∧
      ((P.serve rule s).registered = called.registered ∧ (P.serve rule s).state = called.state ∨
        (P.serve rule s).registered = called.registered ++ asked.registered ∧
          (P.serve rule s).state = asked.state) := by
  intro called asked
  generalize hserve : P.serve rule s = h
  unfold serve at hserve
  dsimp only at hserve
  split at hserve
  · subst hserve
    exact ⟨rfl, Or.inl ⟨rfl, rfl⟩⟩
  · split at hserve
    · subst hserve
      refine ⟨?_, Or.inr ⟨rfl, rfl⟩⟩
      rw [Handled.stays]
      cases asked.result with
      | error e => rfl
      | ok b => cases b <;> rfl
    · subst hserve
      exact ⟨rfl, Or.inl ⟨rfl, rfl⟩⟩

/-- A rule is served only if the answer is what it asked for. -/
theorem serve_legal (hready : e.Ready) :
    (P.serve e.rule s).Legal P (fun _ e => e) true e s := by
  rintro r front back rfl hpolled hentries
  obtain ⟨hstays, hcases⟩ := serve_cases P e.rule r.state
  generalize hcalled : P.call e.rule.callback r.state = called at hcases
  have hcallback : r.step P (.callback front.length) =
      some (r.register called.registered called.state) := by
    rw [step, getElem?_entries hentries, Option.bind_some, if_pos hready, ← hcalled]
  have hentries' := entries_register hentries called.registered called.state
  rw [Handled.kept_of_stays hstays, List.append_assoc]
  rcases hcases with ⟨hregistered, hstate⟩ | ⟨hregistered, hstate⟩
  · rw [hregistered, hstate]
    exact Leads.single hcallback rfl ⟨rfl, rfl, rfl, hentries'⟩
  · rw [hregistered, hstate]
    generalize hasked : P.call e.rule.interest called.state = asked
    have hinterest : (r.register called.registered called.state).step P (.interest front.length) =
        some ((r.register called.registered called.state).register asked.registered
          asked.state) := by
      rw [step, getElem?_entries hentries', Option.bind_some, if_pos hready, ← hasked]
      rfl
    have hfirst : Leads (step P) RuleEvent.own r (· = r.register called.registered called.state) :=
      Leads.single hcallback rfl rfl
    refine hfirst.trans fun r' hr' => ?_
    rw [hr']
    refine Leads.single hinterest rfl ⟨rfl, rfl, rfl, ?_⟩
    rw [entries_register hentries', List.map_append, List.append_assoc]
    rfl

/-- What is done with a rule after `poll` depends on its own `pollfd`. -/
theorem dispatchRule_legal {pollfd : PollFd} (hevents : pollfd.events = e.events)
    (hrevents : pollfd.revents = e.revents) :
    (P.dispatchRule pollfd e.rule s).Legal P (fun _ e => e) true e s := by
  have hnothing : ∀ result : Except Exception (Option Unit),
      (⟨result, s, []⟩ : Handled κ σ Unit).stays = true →
      (⟨result, s, []⟩ : Handled κ σ Unit).Legal P (fun _ e => e) true e s := by
    rintro result hstays r front back rfl - hentries
    refine Leads.refl ⟨rfl, rfl, rfl, ?_⟩
    rw [Handled.kept_of_stays hstays, hentries, List.append_assoc]
    simp
  unfold dispatchRule
  rw [hevents, hrevents]
  dsimp only
  split
  case isTrue => exact hnothing _ rfl
  case isFalse =>
    split
    case isTrue hhup => exact cancelRule_legal _ true (Or.inr ⟨rfl, hhup⟩)
    case isFalse =>
      split
      case isTrue hready => exact serve_legal hready
      case isFalse => exact hnothing _ rfl

end Program

/-! ## The two loops -/

/-- What the kernel sees of a `pollfd`. -/
def PollFd.fields (p : PollFd) : Int × UInt16 × UInt16 := (p.fd, p.events, p.revents)

def Entry.fields (e : Entry κ) : Int × UInt16 × UInt16 := (e.fd, e.events, e.revents)

/-- The entries of the rules before the cursor, and of those from there on. -/
structure Registry.At (r : Registry κ σ) (c : Cursor (Rule κ)) (front back : List (Entry κ)) :
    Prop where
  entries : r.entries = front ++ back
  behind : front.map Entry.rule = c.behind.map Prod.fst
  ahead : back.map Entry.rule = c.ahead.map Prod.fst

namespace Registry.At

variable {r : Registry κ σ} {c : Cursor (Rule κ)} {front back : List (Entry κ)}

theorem rules (h : r.At c front back) : r.rules = c.toList := by
  rw [Registry.rules, h.entries, Cursor.toList, List.map_append, List.map_append, h.behind, h.ahead]

/-- The entry of the rule under the cursor. -/
theorem next {node : Rule κ × Nat} {rest : List (Rule κ × Nat)} (h : r.At c front back)
    (hahead : c.ahead = node :: rest) : ∃ e back', back = e :: back' ∧ e.rule = node.1 := by
  have hmap := h.ahead
  rw [hahead, List.map_cons] at hmap
  obtain ⟨e, back', hback, hrule, -⟩ := List.map_eq_cons_iff.mp hmap
  exact ⟨e, back', hback, hrule⟩

end Registry.At

/-- A step of the cursor, in the terms of the registry. -/
theorem Handled.Legal.advance {P : Program κ σ} {update : β → Entry κ → Entry κ} {polled : Bool}
    {s : σ} {h : Handled κ σ β} {c : Cursor (Rule κ)} {e : Entry κ} {front back : List (Entry κ)}
    {r : Registry κ σ} (hlegal : h.Legal P update polled e s) (hat : r.At c front (e :: back))
    (hupdate : ∀ b, (update b e).rule = e.rule) (hstate : r.state = s)
    (hpolled : r.polled = polled) :
    Leads (Registry.step P) RuleEvent.own r fun r' =>
      r'.state = h.state ∧ r'.polled = r.polled ∧ r'.answer = r.answer ∧
        r'.At (c.advance h.stays h.registered) (front ++ h.kept update e)
          (back ++ h.registered.map Entry.ofRule) := by
  obtain ⟨⟨rule, number⟩, rest, hahead, hrule, hrest⟩ := List.map_eq_cons_iff.mp hat.ahead.symm
  refine (hlegal r front back hstate hpolled hat.entries).imp fun r' hr' => ?_
  obtain ⟨hstate', hpolled', hanswer', hentries'⟩ := hr'
  refine ⟨hstate', hpolled', hanswer', hentries', ?_, ?_⟩
  · -- the rule is behind the cursor if it stays
    change _ = (c.behind ++ if h.stays then c.ahead.take 1 else []).map Prod.fst
    rw [List.map_append, List.map_append, hat.behind, Handled.map_rule_kept hupdate, hahead,
      ← hrule]
    cases h.stays <;> rfl
  · rw [Cursor.ahead_advance hahead, List.map_append, List.map_append, hrest,
      Registry.map_rule_ofRule, List.zipIdx_map_fst]

namespace Program

open Registry

variable {P : Program κ σ}

/-- After the set-up each rule has its `pollfd`. -/
theorem setUp_leads {fuel : Nat} {t t' : SetUp κ σ} {res : Except Exception Unit}
    (h : P.setUp fuel t = some (res, t')) : ∀ (r : Registry κ σ) (front back : List (Entry κ)),
      r.At t.cursor front back → r.state = t.state → r.polled = false →
      front.map Entry.fields = t.pollfds.map PollFd.fields →
      Leads (step P) RuleEvent.own r fun r' =>
        r'.rules = t'.cursor.toList ∧ r'.state = t'.state ∧
          (res = .ok () → r'.polled = false ∧ r'.answer = r.answer ∧
            r'.entries.map Entry.fields = t'.pollfds.map PollFd.fields) := by
  induction fuel generalizing t with
  | zero => cases h
  | succ fuel ih =>
    intro r front back hat hstate hpolled hfields
    rw [setUp] at h
    split at h
    case h_1 hahead =>
      obtain ⟨rfl, rfl⟩ := Prod.mk.inj (Option.some.inj h)
      refine Leads.refl ⟨hat.rules, hstate, fun _ => ⟨hpolled, rfl, ?_⟩⟩
      have hback : back = [] := by
        have hnil := hat.ahead
        rw [hahead] at hnil
        exact List.map_eq_nil_iff.mp hnil
      rw [hat.entries, hback, List.append_nil, hfields]
    case h_2 rule number rest hahead =>
      obtain ⟨e, back, rfl, rfl⟩ := hat.next hahead
      have hstep := (prepare_legal (P := P) (e := e) (s := t.state)).advance hat (fun _ => rfl)
        hstate hpolled
      generalize P.prepare e.rule t.state = handled at h hstep
      dsimp only at h
      split at h
      case h_1 =>
        obtain ⟨rfl, rfl⟩ := Prod.mk.inj (Option.some.inj h)
        refine hstep.imp fun r' hr' => ?_
        obtain ⟨hstate', -, -, hat'⟩ := hr'
        refine ⟨hat'.rules, hstate', fun hok => ?_⟩
        cases hok
      case h_2 hresult =>
        rw [Handled.kept_erased hresult, List.append_nil] at hstep
        refine hstep.trans fun r' hr' => ?_
        obtain ⟨hstate', hpolled', hanswer', hat'⟩ := hr'
        rw [← hanswer']
        exact ih h r' _ _ hat' hstate' (hpolled'.trans hpolled) hfields
      case h_3 interested hresult =>
        rw [Handled.kept_updated hresult] at hstep
        refine hstep.trans fun r' hr' => ?_
        obtain ⟨hstate', hpolled', hanswer', hat'⟩ := hr'
        rw [← hanswer']
        refine ih h r' _ _ hat' hstate' (hpolled'.trans hpolled) ?_
        rw [List.map_append, List.map_append, hfields]
        rfl

/-- The index into the `pollfd`s goes along with the rules. -/
theorem dispatch_leads {pollfds : List PollFd} {fuel : Nat} {d : Dispatched κ σ} :
    ∀ {idx : Nat} {c : Cursor (Rule κ)} {s : σ}, P.dispatch pollfds fuel idx c s = some d →
      ∀ (r : Registry κ σ) (front back : List (Entry κ)), r.At c front back → r.state = s →
        r.polled = true → (pollfds.drop idx).map PollFd.fields <+: back.map Entry.fields →
        Leads (step P) RuleEvent.own r fun r' =>
          r'.rules = d.cursor.toList ∧ r'.state = d.state := by
  induction fuel generalizing d with
  | zero =>
    intro idx c s h
    cases h
  | succ fuel ih =>
    intro idx c s h r front back hat hstate hpolled hfields
    rw [dispatch] at h
    split at h
    case h_1 hahead =>
      obtain rfl := Option.some.inj h
      exact Leads.refl ⟨hat.rules, hstate⟩
    case h_2 rule number rest hahead =>
      split at h
      case h_1 =>
        obtain rfl := Option.some.inj h
        exact Leads.refl ⟨hat.rules, hstate⟩
      case h_2 pollfd hidx =>
        obtain ⟨e, back, rfl, rfl⟩ := hat.next hahead
        obtain ⟨hlt, rfl⟩ := List.getElem?_eq_some_iff.mp hidx
        rw [List.drop_eq_getElem_cons hlt, List.map_cons, List.map_cons, List.cons_prefix_cons]
          at hfields
        obtain ⟨hown, hrest⟩ := hfields
        obtain ⟨-, hown⟩ := Prod.mk.inj hown
        obtain ⟨hevents, hrevents⟩ := Prod.mk.inj hown
        have hstep := (dispatchRule_legal (P := P) (s := s) hevents hrevents).advance hat
          (fun _ => rfl) hstate hpolled
        dsimp only at h
        split at h
        case h_1 =>
          obtain rfl := Option.some.inj h
          refine hstep.imp fun r' hr' => ?_
          obtain ⟨hstate', -, -, hat'⟩ := hr'
          exact ⟨hat'.rules, hstate'⟩
        case h_2 =>
          obtain ⟨d', hd', rfl⟩ := Option.map_eq_some_iff.mp h
          refine hstep.trans fun r' hr' => ?_
          obtain ⟨hstate', hpolled', -, hat'⟩ := hr'
          refine ih hd' r' _ _ hat' hstate' (hpolled'.trans hpolled) ?_
          rw [List.map_append]
          exact List.prefix_append_of_prefix hrest

end Program

/-- `poll` answers for the `i`-th rule in the `i`-th `pollfd`. -/
theorem Registry.fields_hear {r : Registry κ σ} {poll : PollResult} {pollfds : List PollFd}
    (hanswer : r.answer = poll.revents)
    (hfields : r.entries.map Entry.fields = pollfds.map PollFd.fields) :
    r.hear.entries.map Entry.fields = (poll.fill pollfds).map PollFd.fields := by
  refine List.ext_getElem? fun i => ?_
  have hi := congrArg (·[i]?) hfields
  rw [List.getElem?_map, List.getElem?_map] at hi
  rw [Registry.hear, PollResult.fill, List.getElem?_map, List.getElem?_map, List.getElem?_mapIdx,
    List.getElem?_mapIdx, hanswer]
  cases he : r.entries[i]? with
  | none =>
    rw [he] at hi
    rw [Option.map_eq_none_iff.mp hi.symm]
    rfl
  | some e =>
    rw [he] at hi
    obtain ⟨p, hp, hpe⟩ := Option.map_eq_some_iff.mp hi.symm
    rw [hp]
    obtain ⟨hfd, hrest⟩ := Prod.mk.inj hpe
    simp [Entry.fields, PollFd.fields, hfd, (Prod.mk.inj hrest).1]

namespace Program

open Registry

variable {P : Program κ σ}

/-- **One call of `wait_next_event`** does to the rules what the registry allows. -/
theorem waitNextEvent_leads {poll : PollResult} {fuel : Nat} {loop : EventLoop κ} {s : σ}
    {run : Run κ σ} (h : P.waitNextEvent poll fuel loop s = some run) (r : Registry κ σ)
    (hentries : r.entries = loop.rules.map Entry.ofRule) (hstate : r.state = s)
    (hpolled : r.polled = false) (hanswer : r.answer = poll.revents) :
    Leads (step P) RuleEvent.own r fun r' =>
      r'.rules = run.loop.rules ∧ r'.state = run.state := by
  have hat : r.At (loop.start s).cursor [] r.entries := by
    refine ⟨rfl, rfl, ?_⟩
    rw [hentries, map_rule_ofRule]
    exact (List.zipIdx_map_fst ..).symm
  unfold waitNextEvent at h
  split at h
  · cases h
  · rename_i hsetUp
    obtain rfl := Option.some.inj h
    exact (setUp_leads hsetUp r _ _ hat hstate hpolled rfl).imp fun r' hr' => ⟨hr'.1, hr'.2.1⟩
  · rename_i t hsetUp
    have hleads := setUp_leads hsetUp r _ _ hat hstate hpolled rfl
    have hends : Leads (step P) RuleEvent.own r fun r' =>
        r'.rules = t.cursor.toList ∧ r'.state = t.state :=
      hleads.imp fun r' hr' => ⟨hr'.1, hr'.2.1⟩
    split at h
    · obtain rfl := Option.some.inj h
      exact hends
    · dsimp only at h
      split at h
      · obtain rfl := Option.some.inj h
        exact hends
      · obtain ⟨d, hd, rfl⟩ := Option.map_eq_some_iff.mp h
        refine hleads.trans fun r' hr' => ?_
        obtain ⟨hrules', hstate', hok⟩ := hr'
        obtain ⟨hpolled', hanswer', hfields'⟩ := hok rfl
        have hpoll : r'.step P .poll = some r'.hear := by
          rw [step, if_neg (by rw [hpolled']; exact Bool.false_ne_true)]
        have hheard : Leads (step P) RuleEvent.own r' (· = r'.hear) := Leads.single hpoll rfl rfl
        refine hheard.trans fun r'' hr'' => ?_
        subst hr''
        refine dispatch_leads hd r'.hear [] r'.hear.entries ⟨rfl, rfl, ?_⟩ hstate' rfl ?_
        · exact r'.rules_hear.trans hrules'
        · have hsame := fields_hear (hanswer'.trans hanswer) hfields'
          exact ⟨[], by rw [List.append_nil, List.drop_zero, hsame]⟩

end Program

/-! ## Many calls -/

/-- What a program does with an event loop: it adds rules, waits for events, and does other things
in between. -/
inductive LoopEvent (κ σ : Type)
  | addRule (rule : Rule κ)
  | wait (poll : PollResult) (fuel : Nat)
  | other (s : σ)

/-- The program goes on after an exception, but nothing can be said after a read past the end of the
`pollfd`s. -/
def Program.stepLoop (P : Program κ σ) (l : EventLoop κ × σ) :
    LoopEvent κ σ → Option (EventLoop κ × σ)
  | .addRule rule => some (l.1.addRule rule, l.2)
  | .wait poll fuel => (P.waitNextEvent poll fuel l.1 l.2).bind fun run =>
    match run.outcome with
    | .outOfRange _ => none
    | _ => some (run.loop, run.state)
  | .other s => some (l.1, s)

def LoopEvent.toRuleEvent : LoopEvent κ σ → RuleEvent κ σ
  | .addRule rule => .add rule
  | .wait poll _ => .wait poll.revents
  | .other s => .other s

theorem LoopEvent.exists_wait {calls : List (LoopEvent κ σ)} {answer : Nat → UInt16}
    (h : RuleEvent.wait answer ∈ calls.map toRuleEvent) :
    ∃ poll fuel, LoopEvent.wait poll fuel ∈ calls ∧ poll.revents = answer := by
  obtain ⟨e, he, heq⟩ := List.mem_map.mp h
  cases e with
  | wait poll fuel => exact ⟨poll, fuel, he, RuleEvent.wait.inj heq⟩
  | addRule rule => cases heq
  | other s => cases heq

/-- A step of the program with its event loop, in the terms of the registry. -/
theorem Program.stepLoop_leads {P : Program κ σ} {l l' : EventLoop κ × σ} {e : LoopEvent κ σ}
    (h : P.stepLoop l e = some l') (r : Registry κ σ) (hrules : r.rules = l.1.rules)
    (hstate : r.state = l.2) :
    ∃ es r', run (Registry.step P) r es = some r' ∧ (r'.rules = l'.1.rules ∧ r'.state = l'.2) ∧
      es.filterMap RuleEvent.own = [e.toRuleEvent] := by
  cases e with
  | addRule rule =>
    obtain rfl := Option.some.inj h
    refine ⟨[.add rule], _, rfl, ⟨?_, hstate⟩, rfl⟩
    rw [Registry.rules_register, hrules]
    rfl
  | wait poll fuel =>
    obtain ⟨run, hrun, hrest⟩ := Option.bind_eq_some_iff.mp h
    have hentries : r.rules.map Entry.ofRule = l.1.rules.map Entry.ofRule := by rw [hrules]
    obtain ⟨es, r', hes, hown, hends⟩ := waitNextEvent_leads hrun
      { r with entries := r.rules.map Entry.ofRule, answer := poll.revents, polled := false }
      hentries hstate rfl rfl
    split at hrest
    · cases hrest
    · obtain rfl := Option.some.inj hrest
      exact ⟨.wait poll.revents :: es, r', hes, hends, congrArg (_ :: ·) hown⟩
  | other s =>
    obtain rfl := Option.some.inj h
    exact ⟨[.other s], _, rfl, ⟨hrules, rfl⟩, rfl⟩

/-- **No rule is lost, doubled or put out of order.**  Whatever a program does with an event loop,
in any number of calls of `wait_next_event`, and whatever its functions register and throw: the
rules that are left are rules that once joined, in the order in which they joined, and all the
others have left.  A rule leaves only when its `cancel` is called and returns, and at this moment
its file is at its end or closed, or `poll` has answered in the `pollfd` of this rule that the file
has hung up.  Together with what the program does by itself, the functions called on the way make up
the state. -/
theorem rules_accounted (P : Program κ σ) (loop loop' : EventLoop κ) (s s' : σ)
    (calls : List (LoopEvent κ σ))
    (h : Path P.stepLoop (fun _ _ _ => True) (loop, s) calls (loop', s')) :
    ∃ es r, run (Registry.step P) (Registry.start loop.rules s) es = some r ∧
      es.filterMap RuleEvent.own = calls.map LoopEvent.toRuleEvent ∧
      loop'.rules = r.rules ∧ s' = r.state ∧ loop'.rules.Sublist r.joined ∧
      r.joined.Perm (loop'.rules ++ r.left.map fun d => d.entry.rule) ∧
      ∀ d ∈ r.left, d.entry.rule.Finished P d.state ∨
        d.entry.HungUp ∧ ∃ poll fuel i, LoopEvent.wait poll fuel ∈ calls ∧
          d.entry.revents = poll.revents i := by
  obtain ⟨es, r, hrun, ⟨hrules, hstate⟩, hown⟩ := h.refinement (some ∘ LoopEvent.toRuleEvent)
    RuleEvent.own (R := fun l r => r.rules = l.1.rules ∧ r.state = l.2)
    (Registry.start loop.rules s) ⟨Registry.map_rule_ofRule _, rfl⟩
    (fun l e l' r hr hs _ => Program.stepLoop_leads hs r hr.1 hr.2)
  rw [List.filterMap_eq_map] at hown
  have hacc : r.Accounted P es := (Path.of_run hrun).invariant_events
    (Registry.Accounted.start P loop.rules s) fun _ _ _ _ hacc hs _ => hacc.step hs
  refine ⟨es, r, hrun, hown, hrules.symm, hstate.symm, hrules ▸ hacc.order, hrules ▸ hacc.perm,
    fun d hd => (hacc.reason d hd).imp_right fun hhup => ⟨hhup.1, ?_⟩⟩
  obtain ⟨hhup, hans⟩ := hhup
  obtain ⟨answer, i, hwait, hrevents⟩ := hans fun hzero => hhup.1 (by rw [hzero, UInt16.zero_and])
  have hcall : RuleEvent.wait answer ∈ calls.map LoopEvent.toRuleEvent := by
    rw [← hown]
    exact List.mem_filterMap.mpr ⟨_, hwait, rfl⟩
  obtain ⟨poll, fuel, hmem, rfl⟩ := LoopEvent.exists_wait hcall
  exact ⟨poll, fuel, i, hmem, hrevents⟩

/-- Of three rules the second hangs up in the first call, the first is at the end of its file in the
second call, and the third stays. -/
theorem rules_accounted_reader :
    let P : Program Unit Bool :=
      { file := fun atEof fd => ⟨fd, atEof && fd == 3, false, 0, 0⟩
        call := fun _ s => ⟨.ok true, s, []⟩ }
    let reader : Rule Unit := ⟨3, .In, (), (), ()⟩
    let writer : Rule Unit := ⟨4, .Out, (), (), ()⟩
    let idle : Rule Unit := ⟨5, .In, (), (), ()⟩
    let hangup : PollResult := ⟨1, 0, fun i => if i = 1 then pollHup else 0⟩
    let calls : List (LoopEvent Unit Bool) := [.addRule idle, .wait hangup 5, .other true,
      .wait ⟨0, 0, fun _ => 0⟩ 5]
    ∃ es r, run (Registry.step P) (Registry.start [reader, writer] false) es = some r ∧
      es.filterMap RuleEvent.own = calls.map LoopEvent.toRuleEvent ∧ r.rules = [idle] ∧
      r.joined.Perm ([idle] ++ r.left.map fun d => d.entry.rule) ∧
      ∀ d ∈ r.left, d.entry.rule.Finished P d.state ∨
        d.entry.HungUp ∧ ∃ poll fuel i, LoopEvent.wait poll fuel ∈ calls ∧
          d.entry.revents = poll.revents i := by
  intro P reader writer idle hangup calls
  obtain ⟨es, r, hrun, hown, hrules, -, -, hperm, hreason⟩ := rules_accounted P
    ⟨[reader, writer]⟩ ⟨[idle]⟩ false true calls (Path.of_check (by decide))
  exact ⟨es, r, hrun, hown, hrules.symm, hperm, hreason⟩

end Sponge
