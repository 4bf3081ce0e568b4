import Sponge.FileDescriptor
import Sponge.Lib.Cursor

/-!
# The event loop

`wait_next_event` makes one `pollfd` for each rule, calls `poll(2)`, and goes through the rules once
more, together with an index into the `pollfd`s.  The functions that it calls on the way may
register further rules.  `waitNextEvent_own_iff` says when every rule meets its own `pollfd`: when
none of the functions called after `poll` registers a rule that the loop still comes to.
-/

namespace Sponge

inductive Direction
  | In
  | Out
  deriving DecidableEq, Repr

def pollIn : UInt16 := 0x001
def pollOut : UInt16 := 0x004
def pollErr : UInt16 := 0x008
def pollHup : UInt16 := 0x010
def pollNval : UInt16 := 0x020

def Direction.events : Direction → UInt16
  | .In => pollIn
  | .Out => pollOut

def EINTR : Int := 4

/-- A rule: the file descriptor it is about, and the functions it was registered with.  What a
function does is up to the `Program`. -/
structure Rule (κ : Type) where
  fd : Nat
  direction : Direction
  callback : κ
  interest : κ
  cancel : κ
  deriving DecidableEq, Repr

/-- What a call of a user's function does: the state it leaves, the rules it registers, and the
result, which counts for `interest` only. -/
structure Reply (κ σ : Type) where
  result : Except Exception Bool
  state : σ
  registered : List (Rule κ)

/-- The program around the event loop. -/
structure Program (κ σ : Type) where
  file : σ → Nat → FileDescriptor
  call : κ → σ → Reply κ σ

/-- A `pollfd`, with the number of the rule it was made for. -/
structure PollFd where
  fd : Int
  events : UInt16
  revents : UInt16
  source : Nat
  deriving DecidableEq, Repr

/-- What `poll` returns, and the result of each `pollfd`. -/
structure PollResult where
  returnValue : Int
  errno : Int
  revents : Nat → UInt16

def PollResult.fill (r : PollResult) (pollfds : List PollFd) : List PollFd :=
  pollfds.mapIdx fun i p => { p with revents := r.revents i }

inductive Result
  | Success
  | Timeout
  | Exit
  deriving DecidableEq, Repr

/-- How a call of `wait_next_event` ends.  The last case stands for a read past the end of the
`pollfd`s, after which nothing can be said. -/
inductive Outcome
  | returned (result : Result)
  | threw (e : Exception)
  | outOfRange (idx : Nat)
  deriving DecidableEq, Repr

/-- What is done with one rule: it is kept, with a result, or erased, or an exception is thrown. -/
structure Handled (κ σ β : Type) where
  result : Except Exception (Option β)
  state : σ
  registered : List (Rule κ)

variable {κ σ β : Type}

/-- Does the rule stay in the list?  An exception leaves it there. -/
def Handled.stays (h : Handled κ σ β) : Bool :=
  match h.result with
  | .ok none => false
  | _ => true

namespace Program

def serviceCount (P : Program κ σ) (rule : Rule κ) (s : σ) : UInt32 :=
  match rule.direction with
  | .In => (P.file s rule.fd).readCount
  | .Out => (P.file s rule.fd).writeCount

/-- Cancel a rule and erase it. -/
def cancelRule (P : Program κ σ) (rule : Rule κ) (s : σ) : Handled κ σ β :=
  let cancelled := P.call rule.cancel s
  ⟨cancelled.result.map fun _ => none, cancelled.state, cancelled.registered⟩

/-- Set-up for one rule; the result of a rule that is kept is its interest. -/
def prepare (P : Program κ σ) (rule : Rule κ) (s : σ) : Handled κ σ Bool :=
  if rule.direction = .In ∧ (P.file s rule.fd).eof then P.cancelRule rule s
  else if (P.file s rule.fd).closed then P.cancelRule rule s
  else
    let asked := P.call rule.interest s
    ⟨asked.result.map some, asked.state, asked.registered⟩

/-- The call of a ready rule's callback. -/
def serve (P : Program κ σ) (rule : Rule κ) (s : σ) : Handled κ σ Unit :=
  let called := P.call rule.callback s
  match called.result with
  | .error e => ⟨.error e, called.state, called.registered⟩
  | .ok _ =>
    if P.serviceCount rule s = P.serviceCount rule called.state then
      let asked := P.call rule.interest called.state
      let result := match asked.result with
        | .error e => .error e
        | .ok true => .error (.runtimeError
          "EventLoop: busy wait detected: callback did not read/write fd and is still interested")
        | .ok false => .ok (some ())
      ⟨result, asked.state, called.registered ++ asked.registered⟩
    else ⟨.ok (some ()), called.state, called.registered⟩

/-- Dispatch of one rule on a `pollfd`. -/
def dispatchRule (P : Program κ σ) (pollfd : PollFd) (rule : Rule κ) (s : σ) : Handled κ σ Unit :=
  let pollError := pollfd.revents &&& (pollErr ||| pollNval) ≠ 0
  let pollReady := pollfd.revents &&& pollfd.events ≠ 0
  let pollHangup := pollfd.revents &&& pollHup ≠ 0
  if pollError then
    ⟨.error (.runtimeError "EventLoop: error on polled file descriptor"), s, []⟩
  else if pollHangup ∧ pollfd.events ≠ 0 ∧ ¬ pollReady then P.cancelRule rule s
  else if pollReady then P.serve rule s
  else ⟨.ok (some ()), s, []⟩

end Program

/-- The variables of the set-up loop. -/
structure SetUp (κ σ : Type) where
  cursor : Cursor (Rule κ)
  state : σ
  pollfds : List PollFd
  somethingToPoll : Bool

/-- Where the dispatch loop ends; `visits` has the index and the number of each rule visited. -/
structure Dispatched (κ σ : Type) where
  outcome : Outcome
  visits : List (Nat × Nat)
  cursor : Cursor (Rule κ)
  state : σ

structure EventLoop (κ : Type) where
  rules : List (Rule κ)
  deriving DecidableEq, Repr

/-- A call of `wait_next_event`: how it ends, what `poll` made of the `pollfd`s, the visits of the
dispatch loop, and the rules and the state that are left. -/
structure Run (κ σ : Type) where
  outcome : Outcome
  pollfds : List PollFd
  visits : List (Nat × Nat)
  loop : EventLoop κ
  state : σ

def EventLoop.addRule (l : EventLoop κ) (rule : Rule κ) : EventLoop κ := ⟨l.rules ++ [rule]⟩

namespace Program

/-- The set-up loop, for at most `fuel` rules.  It comes to the rules registered meanwhile, too, and
does not end if there are always new ones. -/
def setUp (P : Program κ σ) : Nat → SetUp κ σ → Option (Except Exception Unit × SetUp κ σ)
  | 0, _ => none
  | fuel + 1, t =>
    match t.cursor.ahead with
    | [] => some (.ok (), t)
    | (rule, number) :: _ =>
      let h := P.prepare rule t.state
      let cursor := t.cursor.advance h.stays h.registered
      match h.result with
      | .error e => some (.error e, { t with cursor, state := h.state })
      | .ok none => setUp P fuel { t with cursor, state := h.state }
      | .ok (some interested) =>
        let events := if interested then rule.direction.events else 0
        setUp P fuel
          { cursor
            state := h.state
            pollfds := t.pollfds ++ [⟨(P.file h.state rule.fd).fd, events, 0, number⟩]
            somethingToPoll := t.somethingToPoll || interested }

/-- The dispatch loop, for at most `fuel` rules, from index `idx` on. -/
def dispatch (P : Program κ σ) (pollfds : List PollFd) :
    Nat → Nat → Cursor (Rule κ) → σ → Option (Dispatched κ σ)
  | 0, _, _, _ => none
  | fuel + 1, idx, c, s =>
    match c.ahead with
    | [] => some ⟨.returned .Success, [], c, s⟩
    | (rule, number) :: _ =>
      match pollfds[idx]? with
      | none => some ⟨.outOfRange idx, [(idx, number)], c, s⟩
      | some pollfd =>
        let h := P.dispatchRule pollfd rule s
        let c' := c.advance h.stays h.registered
        match h.result with
        | .error e => some ⟨.threw e, [(idx, number)], c', h.state⟩
        | .ok _ =>
          (dispatch P pollfds fuel (idx + 1) c' h.state).map fun d =>
            { d with visits := (idx, number) :: d.visits }

end Program

/-- Does `wait_next_event` end after `poll`?  The loop goes on after an error other than `EINTR`. -/
def afterPoll : Except Exception Int → Option Outcome
  | .ok ready => if ready = 0 then some (.returned .Timeout) else none
  | .error (.unixError _ error) => if error = EINTR then some (.returned .Exit) else none
  | .error e => some (.threw e)

/-- A call that ends before the dispatch loop. -/
def SetUp.ending (t : SetUp κ σ) (pollfds : List PollFd) (outcome : Outcome) : Run κ σ :=
  ⟨outcome, pollfds, [], ⟨t.cursor.toList⟩, t.state⟩

/-- The variables before the set-up loop. -/
def EventLoop.start (loop : EventLoop κ) (s : σ) : SetUp κ σ :=
  ⟨Cursor.start loop.rules, s, [], false⟩

/-- `wait_next_event`; the result is `none` if `fuel` is not enough for the set-up loop. -/
def Program.waitNextEvent (P : Program κ σ) (poll : PollResult) (fuel : Nat) (loop : EventLoop κ)
    (s : σ) : Option (Run κ σ) :=
  match P.setUp fuel (loop.start s) with
  | none => none
  | some (.error e, t) => some (t.ending t.pollfds (.threw e))
  | some (.ok (), t) =>
    if ¬ t.somethingToPoll then some (t.ending t.pollfds (.returned .Exit))
    else
      let pollfds := poll.fill t.pollfds
      match afterPoll (systemCall "poll" poll.returnValue poll.errno 0) with
      | some outcome => some (t.ending pollfds outcome)
      | none =>
        (P.dispatch pollfds (pollfds.length + 1) 0 t.cursor.restart t.state).map fun d =>
          ⟨d.outcome, pollfds, d.visits, ⟨d.cursor.toList⟩, d.state⟩

/-! ## Set-up -/

namespace SetUp

/-- Each rule that is kept has its `pollfd`, in the same order. -/
def Aligned (t : SetUp κ σ) : Prop :=
  t.pollfds.map PollFd.source = t.cursor.behind.map Prod.snd

end SetUp

namespace Program

variable {P : Program κ σ}

theorem setUp_aligned {fuel : Nat} {t t' : SetUp κ σ} {r : Except Exception Unit}
    (h : P.setUp fuel t = some (r, t')) (ht : t.Aligned) :
    (t'.pollfds.map PollFd.source).Nodup ∧
      (r = .ok () → t'.Aligned ∧ t'.cursor.ahead = []) := by
  induction fuel generalizing t with
  | zero => cases h
  | succ fuel ih =>
    rw [setUp] at h
    have hnodup : (t.pollfds.map PollFd.source).Nodup := by
      rw [ht]
      exact t.cursor.nodup_behind
    split at h
    case h_1 hahead =>
      obtain ⟨rfl, rfl⟩ := Prod.mk.inj (Option.some.inj h)
      exact ⟨hnodup, fun _ => ⟨ht, hahead⟩⟩
    case h_2 rule number rest hahead =>
      dsimp only at h
      split at h
      case h_1 e he =>
        obtain ⟨rfl, rfl⟩ := Prod.mk.inj (Option.some.inj h)
        exact ⟨hnodup, nofun⟩
      case h_2 he =>
        -- the rule is erased: nothing is added behind the cursor
        have hstays : (P.prepare rule t.state).stays = false := by rw [Handled.stays, he]
        refine ih h ?_
        rw [SetUp.Aligned, hstays, Cursor.behind_erase]
        exact ht
      case h_3 interested he =>
        have hstays : (P.prepare rule t.state).stays = true := by rw [Handled.stays, he]
        refine ih h ?_
        rw [SetUp.Aligned, hstays, Cursor.behind_keep hahead, List.map_append, List.map_append, ht]
        rfl

/-! ## Dispatch -/

/-- The `pollfd` at the index of a visit exists and was made for the rule visited. -/
def OwnPollFd (pollfds : List PollFd) (visit : Nat × Nat) : Prop :=
  ∃ p, pollfds[visit.1]? = some p ∧ p.source = visit.2

/-- The rules registered while rules are dispatched one after the other, each on the `pollfd` next
to it; `none` if an exception ends that. -/
def registeredBy (P : Program κ σ) : List (PollFd × Rule κ) → σ → Option (List (Rule κ))
  | [], _ => some []
  | (pollfd, rule) :: rest, s =>
    let h := P.dispatchRule pollfd rule s
    match h.result with
    | .error _ => none
    | .ok _ => (registeredBy P rest h.state).map (h.registered ++ ·)

/-- The dispatch loop ends: at the latest where the `pollfd`s do. -/
theorem dispatch_isSome (P : Program κ σ) (pollfds : List PollFd) (fuel idx : Nat)
    (c : Cursor (Rule κ)) (s : σ) (hfuel : pollfds.length < fuel + idx) (hpos : 0 < fuel) :
    (P.dispatch pollfds fuel idx c s).isSome := by
  induction fuel generalizing idx c s with
  | zero => exact absurd hpos (Nat.lt_irrefl 0)
  | succ fuel ih =>
    rw [dispatch]
    split
    case h_1 => rfl
    case h_2 rule number _ _ =>
      split
      case h_1 => rfl
      case h_2 pollfd hidx =>
        have hlt := (List.getElem?_eq_some_iff.mp hidx).1
        dsimp only
        split
        case h_1 => rfl
        case h_2 =>
          rw [Option.isSome_map]
          exact ih _ _ _ (by omega) (by omega)

/-- The dispatch loop comes to the rules `nodes`, for which the rest of the `pollfd`s was made, and
then to the rules registered since. -/
theorem dispatch_own_iff (pollfds : List PollFd) (fuel idx : Nat) (c : Cursor (Rule κ)) (s : σ)
    (nodes extra : List (Rule κ × Nat)) (d : Dispatched κ σ) (hahead : c.ahead = nodes ++ extra)
    (hsource : (pollfds.drop idx).map PollFd.source = nodes.map Prod.snd)
    (h : P.dispatch pollfds fuel idx c s = some d) :
    (∀ visit ∈ d.visits, OwnPollFd pollfds visit) ↔
      ∀ new, P.registeredBy ((pollfds.drop idx).zip (nodes.map Prod.fst)) s = some new →
        extra = [] ∧ new = [] := by
  induction fuel generalizing idx c s nodes extra d with
  | zero => cases h
  | succ fuel ih =>
    rw [dispatch, hahead] at h
    cases nodes with
    | nil =>
      have hnil : pollfds.drop idx = [] := List.map_eq_nil_iff.mp hsource
      have hnone : pollfds[idx]? = none := List.getElem?_eq_none (List.drop_eq_nil_iff.mp hnil)
      rw [hnil]
      cases extra with
      | nil =>
        obtain rfl := Option.some.inj h
        exact ⟨fun _ new hnew => ⟨rfl, (Option.some.inj hnew).symm⟩, fun _ => nofun⟩
      | cons node extra =>
        -- a rule registered meanwhile: there is no `pollfd` for it
        simp only [List.nil_append, hnone] at h
        obtain rfl := Option.some.inj h
        constructor
        · intro hown
          obtain ⟨p, hp, -⟩ := hown _ (List.mem_singleton_self _)
          rw [hnone] at hp
          cases hp
        · intro hquiet
          cases (hquiet [] rfl).1
    | cons node nodes =>
      obtain ⟨rule, number⟩ := node
      obtain ⟨p, ps, hdrop, hnumber, hps⟩ := List.map_eq_cons_iff.mp hsource
      have hidx : pollfds[idx]? = some p := by
        rw [← List.head?_drop, hdrop]
        rfl
      have hrest : pollfds.drop (idx + 1) = ps := by
        rw [← List.tail_drop, hdrop]
        rfl
      have hvisit : OwnPollFd pollfds (idx, number) := ⟨p, hidx, hnumber⟩
      simp only [List.cons_append, hidx] at h
      rw [hdrop, List.map_cons, List.zip_cons_cons, registeredBy]
      split at h
      case h_1 e he =>
        obtain rfl := Option.some.inj h
        simp only [he]
        exact ⟨fun _ _ => nofun, fun _ visit hv => List.mem_singleton.mp hv ▸ hvisit⟩
      case h_2 kept he =>
        obtain ⟨d', hd', rfl⟩ := Option.map_eq_some_iff.mp h
        -- what the rule registers comes after the rules registered before
        have hahead' := Cursor.ahead_advance hahead (P.dispatchRule p rule s).stays
          (P.dispatchRule p rule s).registered
        rw [List.append_eq, List.append_assoc] at hahead'
        have hih := ih (idx + 1) _ _ nodes _ d' hahead' (hrest ▸ hps) hd'
        rw [hrest] at hih
        simp only [he, List.forall_mem_cons]
        constructor
        · rintro ⟨-, hown⟩ new hnew
          obtain ⟨new', hnew', rfl⟩ := Option.map_eq_some_iff.mp hnew
          obtain ⟨hextra, rfl⟩ := hih.mp hown new' hnew'
          obtain ⟨rfl, hzip⟩ := List.append_eq_nil_iff.mp hextra
          exact ⟨rfl, by rw [List.zipIdx_eq_nil_iff.mp hzip, List.append_nil]⟩
        · intro hquiet
          refine ⟨hvisit, hih.mpr fun new' hnew' => ?_⟩
          obtain ⟨hextra, hnew⟩ := hquiet _ (by rw [hnew', Option.map_some])
          obtain ⟨hreg, hnew'⟩ := List.append_eq_nil_iff.mp hnew
          exact ⟨by rw [hextra, hreg]; rfl, hnew'⟩

end Program

/-! ## The whole call -/

theorem PollResult.map_source_fill (r : PollResult) (pollfds : List PollFd) :
    (r.fill pollfds).map PollFd.source = pollfds.map PollFd.source := by
  refine List.ext_getElem? fun i => ?_
  rw [fill, List.getElem?_map, List.getElem?_map, List.getElem?_mapIdx]
  cases pollfds[i]? <;> rfl

/-- Dispatch from the front of the rules that were kept in the set-up. -/
theorem SetUp.dispatch_own_iff {P : Program κ σ} {t : SetUp κ σ} {poll : PollResult} {fuel : Nat}
    {d : Dispatched κ σ} (halign : t.Aligned) (hahead : t.cursor.ahead = [])
    (hd : P.dispatch (poll.fill t.pollfds) fuel 0 t.cursor.restart t.state = some d) :
    (∀ visit ∈ d.visits, Program.OwnPollFd (poll.fill t.pollfds) visit) ↔
      ∀ new, P.registeredBy ((poll.fill t.pollfds).zip t.cursor.toList) t.state = some new →
        new = [] := by
  have hfront : t.cursor.restart.ahead = t.cursor.behind ++ [] :=
    congrArg (t.cursor.behind ++ ·) hahead
  have hlist : t.cursor.toList = t.cursor.behind.map Prod.fst := by
    rw [Cursor.toList, hahead, List.append_nil]
  have hiff := Program.dispatch_own_iff _ _ 0 _ _ t.cursor.behind [] d hfront
    (by rw [List.drop_zero, poll.map_source_fill]; exact halign) hd
  rw [List.drop_zero, ← hlist] at hiff
  exact hiff.trans ⟨fun h new hnew => (h new hnew).2, fun h new hnew => ⟨rfl, h new hnew⟩⟩

/-- Every visit of the dispatch loop meets the `pollfd` that was made for the rule visited. -/
def Run.Own (run : Run κ σ) : Prop := ∀ visit ∈ run.visits, Program.OwnPollFd run.pollfds visit

namespace Program

/-- The call comes to the dispatch loop, with the variables `t`. -/
def Reaches (P : Program κ σ) (poll : PollResult) (fuel : Nat) (loop : EventLoop κ) (s : σ)
    (t : SetUp κ σ) : Prop :=
  P.setUp fuel (loop.start s) = some (.ok (), t) ∧ t.somethingToPoll = true ∧
    afterPoll (systemCall "poll" poll.returnValue poll.errno 0) = none

/-- If the call comes to the dispatch loop, then the functions called when the polled rules are
dispatched one after the other register no rule, unless an exception ends that. -/
def Quiet (P : Program κ σ) (poll : PollResult) (fuel : Nat) (loop : EventLoop κ) (s : σ) : Prop :=
  ∀ t, P.Reaches poll fuel loop s t →
    ∀ new, P.registeredBy ((poll.fill t.pollfds).zip t.cursor.toList) t.state = some new → new = []

variable {P : Program κ σ} {poll : PollResult} {fuel : Nat} {loop : EventLoop κ} {s : σ}
  {t t' : SetUp κ σ}

theorem Reaches.unique (h : P.Reaches poll fuel loop s t) (h' : P.Reaches poll fuel loop s t') :
    t = t' :=
  (Prod.mk.inj (Option.some.inj (h.1.symm.trans h'.1))).2

/-- Only the set-up loop may go on for ever. -/
theorem waitNextEvent_eq_none_iff :
    P.waitNextEvent poll fuel loop s = none ↔ P.setUp fuel (loop.start s) = none := by
  rw [waitNextEvent]
  split
  case h_1 hset => exact ⟨fun _ => hset, fun _ => rfl⟩
  case h_2 hset => exact ⟨nofun, fun h => by rw [hset] at h; cases h⟩
  case h_3 t hset =>
    refine ⟨fun h => ?_, fun h => by rw [hset] at h; cases h⟩
    split at h
    case isTrue => cases h
    case isFalse =>
      dsimp only at h
      split at h
      case h_1 => cases h
      case h_2 =>
        have hsome := P.dispatch_isSome (poll.fill t.pollfds) ((poll.fill t.pollfds).length + 1) 0
          t.cursor.restart t.state (Nat.lt_succ_self _) (Nat.succ_pos _)
        rw [Option.map_eq_none_iff.mp h] at hsome
        cases hsome

/-- What a call is made of: the set-up loop, and the dispatch loop if it is reached. -/
theorem waitNextEvent_spec {run : Run κ σ} (h : P.waitNextEvent poll fuel loop s = some run) :
    ∃ r t, P.setUp fuel (loop.start s) = some (r, t) ∧
      run.pollfds.map PollFd.source = t.pollfds.map PollFd.source ∧
      (run.visits = [] ∧ (∀ t', ¬ P.Reaches poll fuel loop s t') ∨
        P.Reaches poll fuel loop s t ∧ run.pollfds = poll.fill t.pollfds ∧
          ∃ n d, P.dispatch (poll.fill t.pollfds) n 0 t.cursor.restart t.state = some d ∧
            run.visits = d.visits) := by
  rw [waitNextEvent] at h
  split at h
  case h_1 => cases h
  case h_2 e t hset =>
    obtain rfl := Option.some.inj h
    refine ⟨_, t, hset, rfl, Or.inl ⟨rfl, fun t' ht' => ?_⟩⟩
    cases hset.symm.trans ht'.1
  case h_3 t hset =>
    split at h
    case isTrue hnothing =>
      obtain rfl := Option.some.inj h
      refine ⟨_, t, hset, rfl, Or.inl ⟨rfl, fun t' ht' => ?_⟩⟩
      obtain rfl : t = t' := (Prod.mk.inj (Option.some.inj (hset.symm.trans ht'.1))).2
      exact hnothing ht'.2.1
    case isFalse hsomething =>
      dsimp only at h
      split at h
      case h_1 outcome hpoll =>
        obtain rfl := Option.some.inj h
        refine ⟨_, t, hset, poll.map_source_fill _, Or.inl ⟨rfl, fun t' ht' => ?_⟩⟩
        cases hpoll.symm.trans ht'.2.2
      case h_2 hpoll =>
        obtain ⟨d, hd, rfl⟩ := Option.map_eq_some_iff.mp h
        exact ⟨_, t, hset, poll.map_source_fill _,
          Or.inr ⟨⟨hset, not_not.mp hsomething, hpoll⟩, rfl, _, d, hd, rfl⟩⟩

end Program

/-- **Dispatch.**  Whatever the rules, the functions and the results of `poll` are: once the set-up
loop has ended, `wait_next_event` ends; no two `pollfd`s were made for one rule; and each rule
visited after `poll` meets its own `pollfd` if and only if the functions called there register no
rule that is still visited. -/
theorem waitNextEvent_own_iff (P : Program κ σ) (poll : PollResult) (fuel : Nat)
    (loop : EventLoop κ) (s : σ) :
    (P.waitNextEvent poll fuel loop s = none ↔ P.setUp fuel (loop.start s) = none) ∧
    ∀ run, P.waitNextEvent poll fuel loop s = some run →
      (run.pollfds.map PollFd.source).Nodup ∧ (run.Own ↔ P.Quiet poll fuel loop s) := by
  refine ⟨Program.waitNextEvent_eq_none_iff, fun run hrun => ?_⟩
  obtain ⟨r, t, hset, hsource, hcases⟩ := Program.waitNextEvent_spec hrun
  obtain ⟨hnodup, halign⟩ := Program.setUp_aligned hset rfl
  refine ⟨hsource ▸ hnodup, ?_⟩
  rw [Run.Own]
  rcases hcases with ⟨hvisits, hnot⟩ | ⟨hreach, hfill, n, d, hd, hvisits⟩
  · rw [hvisits]
    exact ⟨fun _ t' ht' => absurd ht' (hnot t'), fun _ => nofun⟩
  · obtain rfl : Except.ok () = r := (Prod.mk.inj (Option.some.inj (hreach.1.symm.trans hset))).1
    obtain ⟨hsame, hahead⟩ := halign rfl
    rw [hvisits, hfill, SetUp.dispatch_own_iff hsame hahead hd]
    exact ⟨fun hnew t' ht' => hreach.unique ht' ▸ hnew, fun hquiet => hquiet t hreach⟩

/-- The first of two rules is cancelled on a hangup; the second still meets the second `pollfd`. -/
example :
    let P : Program Unit FileDescriptor :=
      ⟨fun s _ => s, fun _ s => ⟨.ok true, { s with readCount := s.readCount + 1 }, []⟩⟩
    let rule : Rule Unit := ⟨0, .In, (), (), ()⟩
    let poll : PollResult := ⟨2, 0, fun i => if i = 0 then pollHup else pollIn⟩
    ∃ run, P.waitNextEvent poll 3 ⟨[rule, rule]⟩ ⟨3, false, false, 0, 0⟩ = some run ∧
      run.outcome = .returned .Success ∧ run.visits = [(0, 0), (1, 1)] ∧
      run.loop.rules.length = 1 :=
  ⟨_, rfl, rfl, rfl, rfl⟩

/-- A program whose first function reads the file descriptor and registers the same rule again, as a
server does for a new connection. -/
def acceptor : Program (Fin 3) FileDescriptor where
  file s _ := s
  call k s :=
    if k = 0 then ⟨.ok true, { s with readCount := s.readCount + 1 }, [⟨0, .In, 0, 1, 2⟩]⟩
    else ⟨.ok true, s, []⟩

/-- One rule, ready for reading: after its callback the loop comes to the rule registered there and
reads a second `pollfd` where there is only one. -/
theorem acceptor_outOfRange :
    ∃ run, acceptor.waitNextEvent ⟨1, 0, fun _ => pollIn⟩ 2 ⟨[⟨0, .In, 0, 1, 2⟩]⟩
        ⟨3, false, false, 0, 0⟩ = some run ∧
      run.outcome = .outOfRange 1 ∧ run.pollfds.length = 1 ∧ ¬ run.Own := by
  refine ⟨_, rfl, rfl, rfl, fun hown => ?_⟩
  obtain ⟨p, hp, -⟩ := hown (1, 1) (by decide)
  cases hp

end Sponge
