import Synaps.Lib.Runs
import Synaps.Quota.KeeperSteps

/-!
Runs of the quota keeper: every generation of a seat is paid for once and once more for each
rearm, and its refunds are bounded while only the tracked generation is activated. An activation
rests on the latest poll showing the latest accepted reset due, in runs in which no attempt is
refunded over a reading that shows neither that nor a reason to wait.
-/

set_option autoImplicit false

namespace Synaps.Keeper

open Synaps.Quota Runs

structure Poll where
  key : String
  nowMs : Nat
  obs : UsageObservation

/-- The keeper's state with the clock, the tickets that are not finished, the polls of the
accounts in the state (the latest first) and the events so far. -/
structure KeeperRun where
  state : KeeperState
  clock : Nat
  tickets : List AttemptTicket
  polls : List Poll
  log : List KeeperEvent

def KeeperRun.start : KeeperRun := ⟨.default,0,[],[],[]⟩

/-- The operations. A `begin` also names the decision that its caller asked for before it. -/
inductive KeeperOp where
  | entry (identity : AccountIdentity)
  | observe (nowMs : Nat) (key : String) (obs : UsageObservation)
  | begin (decidedMs : Nat) (optedIn : Bool) (model : String) (nowMs : Nat) (key : String)
  | finish (nowMs : Nat) (ticket : AttemptTicket) (outcome : AttemptOutcome)
  | rearm (nowMs : Nat) (key : String)
  | prune (nowMs : Nat) (keep : List AccountIdentity) (maxIdleMs : Nat)
  | restart (nowMs : Nat)

def KeeperOp.nowMs? : KeeperOp → Option Nat
  | .entry _ => none
  | .observe nowMs _ _ => some nowMs
  | .begin _ _ _ nowMs _ => some nowMs
  | .finish nowMs _ _ => some nowMs
  | .rearm nowMs _ => some nowMs
  | .prune nowMs _ _ => some nowMs
  | .restart nowMs => some nowMs

/-- One operation; a call that fails is no step. -/
def KeeperRun.perform (cfg : KeeperConfig) (s : KeeperRun) : KeeperOp → Option KeeperRun
  | .entry identity => some { s with state := s.state.entry identity }
  | .observe nowMs key obs =>
    match observe s.state cfg nowMs key obs with
    | .ok (state,events) =>
      some { s with state, polls := ⟨key,nowMs,obs⟩ :: s.polls, log := s.log ++ events }
    | .error _ => none
  | .begin _ _ _ nowMs key =>
    match beginAttempt s.state nowMs key with
    | .ok (state,ticket,events) =>
      some { s with state, tickets := ticket :: s.tickets, log := s.log ++ events }
    | .error _ => none
  | .finish nowMs ticket outcome =>
    match finishAttempt s.state cfg nowMs ticket outcome with
    | .ok (state,events) =>
      some { s with state, tickets := s.tickets.erase ticket, log := s.log ++ events }
    | .error _ => none
  | .rearm nowMs key =>
    match Keeper.rearm s.state nowMs key with
    | .ok (state,event) => some { s with state, log := s.log ++ event.toList }
    | .error _ => none
  | .prune nowMs keep maxIdleMs =>
    let (state,pruned) := s.state.pruneIdle keep nowMs maxIdleMs
    some { s with state, polls := s.polls.filter fun p => !pruned.contains p.key }
  | .restart nowMs =>
    let (state,events) := recoverAfterRestart s.state nowMs
    some { s with state, log := s.log ++ events }

def KeeperRun.step (cfg : KeeperConfig) (s : KeeperRun) (op : KeeperOp) : Option KeeperRun :=
  if op.nowMs?.all (s.clock ≤ ·) then
    (s.perform cfg op).map fun t => { t with clock := op.nowMs?.getD s.clock }
  else none

def KeeperStep (cfg : KeeperConfig) (s : KeeperRun) (op : KeeperOp) (t : KeeperRun) : Prop :=
  s.step cfg op = some t

def KeeperStart (s : KeeperRun) : Prop := s = .start

def ActivationDecision.isActivate : ActivationDecision → Bool
  | .activate _ _ => true
  | .skip _ => false

/-- An attempt is begun directly after a decision for it, and a ticket is finished once. -/
def Disciplined (cfg : KeeperConfig) (s : KeeperRun) : KeeperOp → Bool
  | .begin decidedMs optedIn model nowMs key =>
    s.clock ≤ decidedMs && decidedMs ≤ nowMs &&
      (activationDecision s.state cfg decidedMs key optedIn model).isActivate
  | .finish _ ticket _ => s.tickets.contains ticket
  | _ => true

/-- Attempts are begun only for the generation that is tracked. -/
def BeginsTracked (s : KeeperRun) : KeeperOp → Bool
  | .begin _ _ _ _ key =>
    s.state.accounts[key]?.all fun st =>
      match st.phase with
      | .awaitingActivation g _ => st.generation = some g
      | _ => true
  | _ => true

def KeeperRun.view (s : KeeperRun) (key : String) : Option AccountState × List Poll :=
  (s.state.accounts[key]?,s.polls.filter fun p => p.key = key)

/-- The change of one account, with the entries that it makes in the account's book. -/
inductive AccountMove (cfg : KeeperConfig) (op : KeeperOp) (key : String) :
    Option AccountState × List Poll → Option AccountState × List Poll → List Entry → Prop where
  | same (a : Option AccountState) (polls : List Poll) :
      AccountMove cfg op key (a,polls) (a,polls) []
  | created {st : AccountState} {polls : List Poll} (hl : st.ledger = ⟨.idle,none,0,0,false⟩)
      (he : st.evidence = ⟨none,false,[],none,false⟩) :
      AccountMove cfg op key (none,polls) (some st,polls) []
  | kept {st st' : AccountState} {polls : List Poll} (hl : st'.ledger = st.ledger)
      (he : st'.evidence = st.evidence) :
      AccountMove cfg op key (some st,polls) (some st',polls) []
  | polled {st : AccountState} {polls : List Poll} {nowMs : Nat} {obs : UsageObservation}
      (hop : op = .observe nowMs key obs) :
      AccountMove cfg op key (some st,polls)
        (some (observeAccount cfg nowMs key obs st).st,⟨key,nowMs,obs⟩ :: polls) []
  | begun {st st' : AccountState} {polls : List Poll} {decidedMs nowMs g : Nat} {optedIn : Bool}
      {model : String} (hop : op = .begin decidedMs optedIn model nowMs key)
      (hs : st.ledger.stage = .awaiting g)
      (hl : st'.ledger = { st.ledger with stage := .pending g, spent := st.ledger.spent + 1 })
      (he : st'.evidence = { st.evidence with tried := true }) :
      AccountMove cfg op key (some st,polls) (some st',polls) [.begun g]
  | refunded {st : AccountState} {polls : List Poll} {nowMs : Nat} {ticket : AttemptTicket}
      {outcome : AttemptOutcome} (hop : op = .finish nowMs ticket outcome)
      (hkey : ticket.key = key) (hr : refunds ticket outcome st = true) :
      AccountMove cfg op key (some st,polls)
        (some (finishAccount cfg nowMs ticket outcome st).st,polls) [.refunded ticket.generation]
  | rearmed {st st' : AccountState} {polls : List Poll} {g : Nat}
      (hr : Rearmed g st.ledger st'.ledger) (he : st'.evidence = st.evidence) :
      AccountMove cfg op key (some st,polls) (some st',polls) [.rearmed g]
  | pruned {st : AccountState} {polls : List Poll} (hs : st.history = []) :
      AccountMove cfg op key (some st,polls) (none,[]) []

section Steps

variable {cfg : KeeperConfig} {s t : KeeperRun} {op : KeeperOp}

theorem getElem?_insert_account (accounts : Std.TreeMap String AccountState) (key k : String)
    (st : AccountState) :
    (accounts.insert key st)[k]? = if key = k then some st else accounts[k]? := by
  rw [Std.TreeMap.getElem?_insert]
  simp

theorem move_of_insert {key : String} {a : Option AccountState} {st' : AccountState}
    {e : List Entry} {fresh : List Poll} {events : List KeeperEvent} (t : KeeperRun)
    (hfresh : ∀ p ∈ fresh, p.key = key) (hbook : ∀ k, bookOf k events = if key = k then e else [])
    (ha : s.state.accounts[key]? = a)
    (hmove : AccountMove cfg op key (a,(s.view key).2) (some st',fresh ++ (s.view key).2) e)
    (ht : t.state.accounts = s.state.accounts.insert key st' ∧ t.polls = fresh ++ s.polls ∧
      t.log = s.log ++ events) (k : String) :
    ∃ e, AccountMove cfg op k (s.view k) (t.view k) e ∧ bookOf k t.log = bookOf k s.log ++ e := by
  obtain ⟨hstate,hpolls,hlog⟩ := ht
  refine ⟨bookOf k events,?_,by rw [hlog,bookOf_append]⟩
  have hview : t.view k = (if key = k then some st' else s.state.accounts[k]?,
      (fresh ++ s.polls).filter fun p => p.key = k) := by
    unfold KeeperRun.view
    rw [hstate,hpolls,getElem?_insert_account]
  rw [hview,hbook,List.filter_append]
  by_cases hk : key = k
  · subst hk ha
    have hown : (fresh.filter fun p => p.key = key) = fresh := by
      simpa [List.filter_eq_self] using hfresh
    simpa [hown,KeeperRun.view] using hmove
  · have hnone : (fresh.filter fun p => p.key = k) = [] := by
      rw [List.filter_eq_nil_iff]
      intro p hp
      simpa [hfresh p hp] using hk
    simpa [hk,hnone] using .same _ _

theorem entry_moves (identity : AccountIdentity) (k : String)
    (h : s.perform cfg (.entry identity) = some t) :
    ∃ e, AccountMove cfg (.entry identity) k (s.view k) (t.view k) e ∧
      bookOf k t.log = bookOf k s.log ++ e := by
  cases h
  have hmove : AccountMove cfg (.entry identity) identity.key
      (s.state.accounts[identity.key]?,(s.view identity.key).2)
      (some { (s.state.accounts[identity.key]?).getD (.new identity) with identity := identity },
        [] ++ (s.view identity.key).2) [] := by
    cases s.state.accounts[identity.key]? with
    | none => exact .created rfl rfl
    | some st => exact .kept rfl rfl
  have hbook : ∀ k, bookOf k [] = if identity.key = k then [] else [] := by simp
  refine move_of_insert _ (by simp) hbook rfl hmove ?_ k
  exact ⟨rfl,rfl,by simp⟩

theorem mem_pruned {keep : List AccountIdentity} {nowMs maxIdleMs : Nat} {k : String} :
    k ∈ (s.state.pruneIdle keep nowMs maxIdleMs).2 ↔ ∃ st, s.state.accounts[k]? = some st ∧
      prunable (keep.map (·.key)) nowMs maxIdleMs k st = true := by
  simp only [KeeperState.pruneIdle,List.mem_map,List.mem_filter]
  constructor
  · rintro ⟨⟨k',st⟩,⟨hmem,hgone⟩,rfl⟩
    exact ⟨st,Std.TreeMap.mem_toList_iff_getElem?_eq_some.mp hmem,hgone⟩
  · rintro ⟨st,hst,hgone⟩
    exact ⟨(k,st),⟨Std.TreeMap.mem_toList_iff_getElem?_eq_some.mpr hst,hgone⟩,rfl⟩

theorem prune_moves (nowMs : Nat) (keep : List AccountIdentity) (maxIdleMs : Nat) (k : String)
    (h : s.perform cfg (.prune nowMs keep maxIdleMs) = some t) :
    AccountMove cfg (.prune nowMs keep maxIdleMs) k (s.view k) (t.view k) [] := by
  cases h
  have hview : KeeperRun.view { s with
      state := (s.state.pruneIdle keep nowMs maxIdleMs).1
      polls := s.polls.filter fun p =>
        !(s.state.pruneIdle keep nowMs maxIdleMs).2.contains p.key } k =
      (s.state.accounts[k]?.filter fun st => !prunable (keep.map (·.key)) nowMs maxIdleMs k st,
        if k ∈ (s.state.pruneIdle keep nowMs maxIdleMs).2 then []
        else s.polls.filter fun p => p.key = k) := by
    unfold KeeperRun.view
    refine Prod.ext ?_ ?_
    · exact Std.TreeMap.getElem?_filter'
    · rw [List.filter_filter]
      split
      · next hk =>
        rw [List.filter_eq_nil_iff]
        intro p _ hp
        simp only [Bool.and_eq_true,decide_eq_true_eq,Bool.not_eq_true'] at hp
        rw [hp.1] at hp
        simp [hk] at hp
      · next hk =>
        refine List.filter_congr fun p _ => ?_
        by_cases hp : p.key = k
        · simp [hp,hk]
        · simp [hp]
  refine Eq.subst (motive := fun v => AccountMove cfg _ k (s.view k) v []) hview.symm ?_
  unfold KeeperRun.view
  cases hst : s.state.accounts[k]? with
  | none =>
    have hno : k ∉ (s.state.pruneIdle keep nowMs maxIdleMs).2 := by
      rw [mem_pruned]
      simp [hst]
    rw [if_neg hno]
    exact .same _ _
  | some st =>
    cases hgone : prunable (keep.map (·.key)) nowMs maxIdleMs k st with
    | false =>
      have hno : k ∉ (s.state.pruneIdle keep nowMs maxIdleMs).2 := by
        rw [mem_pruned]
        simp [hst,hgone]
      simpa [Option.filter,hgone,hno] using .same _ _
    | true =>
      have hyes : k ∈ (s.state.pruneIdle keep nowMs maxIdleMs).2 := mem_pruned.mpr ⟨st,hst,hgone⟩
      have hempty : st.history = [] := by
        simp only [prunable,Bool.and_eq_true,decide_eq_true_eq] at hgone
        exact hgone.1.1.2
      have hmove : AccountMove cfg (.prune nowMs keep maxIdleMs) k
          (some st,s.polls.filter fun p => p.key = k) (none,[]) [] := .pruned hempty
      simpa [Option.filter,hgone,hyes] using hmove

theorem restart_moves (nowMs : Nat) (k : String) (h : s.perform cfg (.restart nowMs) = some t) :
    AccountMove cfg (.restart nowMs) k (s.view k) (t.view k) [] ∧
      bookOf k t.log = bookOf k s.log := by
  cases h
  constructor
  · unfold KeeperRun.view
    simp only [Std.TreeMap.getElem?_map]
    cases s.state.accounts[k]? with
    | none => exact .same _ _
    | some st =>
      obtain ⟨hl,he,-⟩ := recoverAccount_keeps nowMs k st
      exact .kept hl he
  · have hquiet : bookOf k (s.state.accounts.toList.flatMap fun e =>
        (recoverAccount nowMs e.1 e.2).events) = [] := by
      rw [bookOf,List.filterMap_flatMap,List.flatMap_eq_nil_iff]
      intro e _
      exact (recoverAccount_keeps nowMs e.1 e.2).2.2 k
    simp [hquiet]

theorem perform_moves (h : s.perform cfg op = some t) (k : String) :
    ∃ e, AccountMove cfg op k (s.view k) (t.view k) e ∧ bookOf k t.log = bookOf k s.log ++ e := by
  cases op with simp only [KeeperRun.perform] at h
  | entry identity => exact entry_moves identity k h
  | observe nowMs key obs =>
    split at h
    · next state events hobs =>
      cases h
      unfold observe at hobs
      split at hobs
      · cases hobs
      next st hst =>
      cases hobs
      have hbook : ∀ k, bookOf k (observeAccount cfg nowMs key obs st).events =
          if key = k then [] else [] := by
        intro k
        rw [observeAccount_book,ite_self]
      have hmove := @AccountMove.polled cfg _ key st (s.view key).2 nowMs obs rfl
      refine @move_of_insert cfg s _ key _ _ _ [⟨key,nowMs,obs⟩] _ _ (by simp) hbook hst hmove ?_ k
      exact ⟨rfl,rfl,rfl⟩
    · cases h
  | begin decidedMs optedIn model nowMs key =>
    split at h
    · next state ticket events hbegin =>
      cases h
      unfold beginAttempt at hbegin
      split at hbegin
      · cases hbegin
      next st hst =>
      cases hb : beginAccount nowMs key st with rw [hb] at hbegin
      | error reason =>
        cases hbegin
      | ok begun =>
        cases hbegin
        obtain ⟨g,hs,hl,he,hbook⟩ := beginAccount_ok hb
        have hmove := @AccountMove.begun cfg _ key st begun.2.st (s.view key).2 decidedMs nowMs g
          optedIn model rfl hs hl he
        refine @move_of_insert cfg s _ key _ _ _ [] _ _ (by simp) hbook hst hmove ?_ k
        exact ⟨rfl,rfl,rfl⟩
    · cases h
  | finish nowMs ticket outcome =>
    split at h
    · next state events hfinish =>
      cases h
      unfold finishAttempt at hfinish
      split at hfinish
      · cases hfinish
      next st hst =>
      cases hfinish
      cases hr : refunds ticket outcome st with
      | false =>
        obtain ⟨hl,he,hbook⟩ := @finishAccount_keeps cfg nowMs st ticket outcome hr
        have hbook' : ∀ k, bookOf k (finishAccount cfg nowMs ticket outcome st).events =
            if ticket.key = k then [] else [] := by
          intro k
          rw [hbook,ite_self]
        have hmove := @AccountMove.kept cfg (.finish nowMs ticket outcome) ticket.key st _
          (s.view ticket.key).2 hl he
        refine @move_of_insert cfg s _ ticket.key _ _ _ [] _ _ (by simp) hbook' hst hmove ?_ k
        exact ⟨rfl,rfl,rfl⟩
      | true =>
        obtain ⟨-,-,-,hbook⟩ := @finishAccount_refunds cfg nowMs st ticket outcome hr
        have hmove := @AccountMove.refunded cfg _ ticket.key st (s.view ticket.key).2 nowMs ticket
          outcome rfl rfl hr
        refine @move_of_insert cfg s _ ticket.key _ _ _ [] _ _ (by simp) hbook hst hmove ?_ k
        exact ⟨rfl,rfl,rfl⟩
    · cases h
  | rearm nowMs key =>
    split at h
    · next state event hrearm =>
      cases h
      unfold Keeper.rearm at hrearm
      split at hrearm
      · cases hrearm
      next st hst =>
      split at hrearm
      · cases hrearm
        exact ⟨[],.same _ _,by simp⟩
      next st' e hre =>
      cases hrearm
      obtain ⟨g,hr,he,hbook⟩ := rearmAccount_some hre
      have hmove := @AccountMove.rearmed cfg (.rearm nowMs key) key st st' (s.view key).2 g hr he
      refine @move_of_insert cfg s _ key _ _ _ [] _ _ (by simp) hbook hst hmove ?_ k
      exact ⟨rfl,rfl,rfl⟩
    · cases h
  | prune nowMs keep maxIdleMs =>
    refine ⟨[],prune_moves nowMs keep maxIdleMs k h,?_⟩
    cases h
    simp
  | restart nowMs =>
    obtain ⟨hm,hbook⟩ := restart_moves nowMs k h
    exact ⟨[],hm,by rw [hbook,List.append_nil]⟩

theorem step_perform (h : s.step cfg op = some t) :
    op.nowMs?.all (s.clock ≤ ·) = true ∧ ∃ u, s.perform cfg op = some u ∧
      t = { u with clock := op.nowMs?.getD s.clock } := by
  unfold KeeperRun.step at h
  split at h
  · next hclock =>
    obtain ⟨u,hu,rfl⟩ := Option.map_eq_some_iff.mp h
    exact ⟨hclock,u,hu,rfl⟩
  · cases h

theorem step_moves (h : KeeperStep cfg s op t) (k : String) :
    ∃ e, AccountMove cfg op k (s.view k) (t.view k) e ∧ bookOf k t.log = bookOf k s.log ++ e := by
  obtain ⟨-,u,hu,rfl⟩ := step_perform h
  exact perform_moves hu k

end Steps

structure Audited (a : Option AccountState) (book : List Entry) : Prop where
  sound : ∀ st, a = some st → Sound st.ledger book
  untried : ∀ st, a = some st → st.evidence.tried = false → book = [] ∧ st.ledger.Untried
  absent : a = none → book = []

section Invariant

variable {cfg : KeeperConfig} {s t : KeeperRun} {op : KeeperOp} {key : String}
  {v v' : Option AccountState × List Poll} {book e : List Entry}

theorem Audited.none : Audited none [] where
  sound := fun _ h => by cases h
  untried := fun _ h => by cases h
  absent := fun _ => rfl

theorem Audited.of_tried {st : AccountState} (hs : Sound st.ledger book)
    (ht : st.evidence.tried = true) : Audited (some st) book where
  sound := fun st' h => Option.some.inj h ▸ hs
  untried := by
    rintro st' h hno
    cases h
    rw [ht] at hno
    cases hno
  absent := nofun

theorem Audited.tried_of {st : AccountState} (h : Audited (some st) book)
    (hno : ¬ st.ledger.Untried) : st.evidence.tried = true := by
  by_contra ht
  exact hno (h.untried st rfl (by simpa using ht)).2

section

variable {decidedMs nowMs : Nat} {optedIn : Bool} {model : String} {st : AccountState}

theorem authorized_of_disciplined
    (hd : Disciplined cfg s (.begin decidedMs optedIn model nowMs key) = true)
    (hst : s.state.accounts[key]? = some st) : ∃ g, Authorized cfg g st := by
  simp only [Disciplined,Bool.and_eq_true] at hd
  have hact := hd.2
  unfold activationDecision at hact
  rw [hst] at hact
  cases hdec : decideAccount cfg decidedMs optedIn model st with
  | activate g attempt => exact ⟨g,decideAccount_activate hdec⟩
  | skip reason =>
    simp [hdec,ActivationDecision.isActivate] at hact

theorem began_of_disciplined {g : Nat} {st' : AccountState}
    (hlimit : cfg.maxAttemptsPerGeneration = 1)
    (hd : Disciplined cfg s (.begin decidedMs optedIn model nowMs key) = true)
    (hst : s.state.accounts[key]? = some st) (hs : st.ledger.stage = .awaiting g)
    (hl : st'.ledger = { st.ledger with stage := .pending g, spent := st.ledger.spent + 1 }) :
    Began 1 maxNotSentPerGeneration g st.ledger st'.ledger := by
  obtain ⟨g',hauth⟩ := authorized_of_disciplined hd hst
  exact ⟨hs,hlimit ▸ hauth.spent,hauth.unsent,hauth.pollOk,hl⟩

end

theorem refunded_of_refunds {nowMs : Nat} {ticket : AttemptTicket} {outcome : AttemptOutcome}
    {st : AccountState} (hr : refunds ticket outcome st = true) :
    Refunded ticket.generation st.ledger (finishAccount cfg nowMs ticket outcome st).st.ledger := by
  obtain ⟨hs,hl,-,-⟩ := @finishAccount_refunds cfg nowMs st ticket outcome hr
  refine ⟨hs,_,?_,hl⟩
  split
  · exact .inr rfl
  · exact .inl rfl

theorem Audited.move (hlimit : cfg.maxAttemptsPerGeneration = 1)
    (hd : Disciplined cfg s op = true) (hv : s.state.accounts[key]? = v.1)
    (hm : AccountMove cfg op key v v' e) (h : Audited v.1 book) : Audited v'.1 (book ++ e) := by
  cases hm with
  | same => simpa using h
  | @created st polls hl he =>
    rw [h.absent rfl]
    refine ⟨?_,?_,fun hn => by cases hn⟩
    · rintro st' ⟨⟩
      exact .fresh (by rw [hl]) (by rw [hl])
    · rintro st' ⟨⟩ -
      exact ⟨rfl,by rw [hl],.inl (by rw [hl])⟩
  | @kept st st' polls hl he =>
    simp only [List.append_nil]
    refine ⟨?_,?_,fun hn => by cases hn⟩
    · rintro u ⟨⟩
      exact hl ▸ h.sound st rfl
    · rintro u ⟨⟩ hno
      exact hl ▸ h.untried st rfl (he ▸ hno)
  | @polled st polls nowMs obs hop =>
    simp only [List.append_nil]
    have hp := @observeAccount_polled cfg nowMs key obs st
    refine ⟨?_,?_,fun hn => by cases hn⟩
    · rintro u ⟨⟩
      exact (h.sound st rfl).polled hp
    · rintro u ⟨⟩ hno
      have htried : st.evidence.tried = false := by
        rw [observeAccount_evidence] at hno
        split at hno <;> exact hno
      obtain ⟨hbook,hun⟩ := h.untried st rfl htried
      exact ⟨hbook,hun.polled (by omega) hp⟩
  | @begun st st' polls decidedMs nowMs g optedIn model hop hs hl he =>
    subst hop
    have hb := began_of_disciplined hlimit hd hv hs hl
    exact .of_tried ((h.sound st rfl).began hb) (by rw [he])
  | @refunded st polls nowMs ticket outcome hop hkey hr =>
    have hr' := @refunded_of_refunds cfg nowMs ticket outcome st hr
    refine .of_tried ((h.sound st rfl).refunded hr') ?_
    obtain ⟨-,-,he,-⟩ := @finishAccount_refunds cfg nowMs st ticket outcome hr
    rw [he]
    exact h.tried_of fun hun => hun.not_pending _ hr'.stage
  | @rearmed st st' polls g hr he =>
    refine .of_tried ((h.sound st rfl).rearmed hr) ?_
    rw [he]
    exact h.tried_of fun hun => hun.not_unverified _ hr.stage
  | @pruned st polls hs =>
    have htried : st.evidence.tried = false := by simp [AccountState.evidence,hs]
    obtain ⟨rfl,-⟩ := h.untried st rfl htried
    exact .none

def Paid (s : KeeperRun) : Prop := ∀ key, Audited s.state.accounts[key]? (bookOf key s.log)

theorem paid_start : Paid .start := by
  intro key
  exact .none

section

variable (hlimit : cfg.maxAttemptsPerGeneration = 1)

include hlimit

theorem paid_step (h : Paid s) (hd : Disciplined cfg s op = true) (hstep : KeeperStep cfg s op t) :
    Paid t := by
  intro key
  obtain ⟨e,hm,hbook⟩ := step_moves hstep key
  rw [hbook]
  exact (h key).move hlimit hd rfl hm

/-- The refunds of every account are within the tolerance. -/
structure Lenient (s : KeeperRun) : Prop where
  paid : Paid s
  tolerated : ∀ key st, s.state.accounts[key]? = some st →
    Tolerated maxNotSentPerGeneration st.ledger (bookOf key s.log)

theorem tolerated_move {st' : AccountState} (hd : Disciplined cfg s op = true)
    (hb : BeginsTracked s op = true) (hv : s.state.accounts[key]? = v.1) (hv' : v'.1 = some st')
    (hm : AccountMove cfg op key v v' e) (hp : Audited v.1 book)
    (h : ∀ st, v.1 = some st → Tolerated maxNotSentPerGeneration st.ledger book) :
    Tolerated maxNotSentPerGeneration st'.ledger (book ++ e) := by
  cases hm with
  | same => simpa using h st' hv'
  | @created st polls hl he =>
    cases hv'
    rw [hp.absent rfl]
    exact .fresh (by rw [hl]) (by rw [hl])
  | @kept st st' polls hl he =>
    cases hv'
    simpa [hl] using h st rfl
  | @polled st polls nowMs obs hop =>
    cases hv'
    rw [List.append_nil]
    exact (h st rfl).polled (@observeAccount_polled cfg nowMs key obs st)
  | @begun st st' polls decidedMs nowMs g optedIn model hop hs hl he =>
    cases hv'
    subst hop
    refine (h st rfl).began (began_of_disciplined hlimit hd hv hs hl) ?_
    cases hphase : st.phase <;> simp [AccountState.ledger,hphase,Phase.stage] at hs
    subst hs
    simpa [BeginsTracked,hv,hphase,AccountState.ledger] using hb
  | @refunded st polls nowMs ticket outcome hop hkey hr =>
    cases hv'
    exact (h st rfl).refunded (hp.sound st rfl) (refunded_of_refunds hr)
  | @rearmed st st' polls g hr he =>
    cases hv'
    exact (h st rfl).rearmed hr
  | pruned hs => cases hv'

theorem lenient_step (h : Lenient s) (hd : Disciplined cfg s op = true)
    (hb : BeginsTracked s op = true) (hstep : KeeperStep cfg s op t) :
    Lenient t where
  paid := paid_step hlimit h.paid hd hstep
  tolerated := by
    intro key st' hst'
    obtain ⟨e,hm,hbook⟩ := step_moves hstep key
    rw [hbook]
    exact tolerated_move hlimit hd hb rfl hst' hm (h.paid key) (h.tolerated key)

end

end Invariant

theorem bounded_limit (c : KeeperConfig) : c.bounded.maxAttemptsPerGeneration = 1 := by
  show clamp 1 maxMaxAttempts c.maxAttemptsPerGeneration = 1
  unfold clamp maxMaxAttempts
  split
  · rfl
  · split
    · rfl
    · omega

/-- In every disciplined run of a bounded keeper, the attempts of a generation that are not
refunded are at most one more than its rearms; and if attempts are begun only for the tracked
generation, the refunds of every generation between rearms are within the tolerance. -/
theorem attempts_within_budget (c : KeeperConfig) : (∀ s, Reachable KeeperStart
        (Under (KeeperStep c.bounded) fun s op => Disciplined c.bounded s op = true) s →
      ∀ key g, begunIn (bookOf key s.log) g - refundedIn (bookOf key s.log) g ≤
        1 + rearmedIn (bookOf key s.log) g) ∧
    (∀ s, Reachable KeeperStart (Under (KeeperStep c.bounded) fun s op =>
          Disciplined c.bounded s op = true ∧ BeginsTracked s op = true) s →
      ∀ key g, refundedSinceRearm (bookOf key s.log) g ≤ maxNotSentPerGeneration) := by
  have hlimit := bounded_limit c
  constructor
  · intro s hs key g
    have hpaid : Paid s := by
      refine hs.invariant Paid (fun a ha => ha ▸ paid_start) ?_
      rintro a b ha ⟨op,hd,hstep⟩
      exact paid_step hlimit ha hd hstep
    cases hst : s.state.accounts[key]? with
    | none =>
      have hbook := (hpaid key).absent hst
      simp [hbook,begunIn]
    | some st =>
      have := ((hpaid key).sound st hst).budget g
      omega
  · intro s hs key g
    have hlenient : Lenient s := by
      refine hs.invariant Lenient (fun a ha => ?_) ?_
      · subst ha
        exact ⟨paid_start,fun key st hst => by cases Std.TreeMap.getElem?_emptyc.symm.trans hst⟩
      · rintro a b ha ⟨op,⟨hd,hb⟩,hstep⟩
        exact lenient_step hlimit ha hd hb hstep
    cases hst : s.state.accounts[key]? with
    | none =>
      have hbook := (hlenient.paid key).absent hst
      simp [hbook,refundedSinceRearm]
    | some st => exact (hlenient.tolerated key st hst).bound g

def demoConfig : KeeperConfig := KeeperConfig.default.bounded

def demoSeat : AccountIdentity := ⟨"local:auth.json","openai-codex@work","seat:1f"⟩

def demoKey : String := "local:auth.json|openai-codex|seat:1f"

def demoWindow (id : String) (resetsAtMs : Nat) (models : Option (List String)) : WindowLimit :=
  ⟨id,some (7 * dayMs),some (.finite 0),none,some resetsAtMs,models⟩

def dueReading (observedAtMs : Nat) : UsageObservation :=
  ⟨observedAtMs,.ok [demoWindow "primary" 1000 none] none none none⟩

/-- Only the window of one model is reported, with a later reset that has passed as well. -/
def modelReading (observedAtMs : Nat) : UsageObservation :=
  ⟨observedAtMs,.ok [demoWindow "gpt-5.primary" 1500 (some ["gpt-5"])] none none none⟩

def demoBegin (nowMs : Nat) : KeeperOp := .begin nowMs true "gpt-5" nowMs demoKey

def demoRefund (nowMs : Nat) : KeeperOp :=
  .finish nowMs ⟨demoKey,1000,1⟩ (.notSent .connect "refused")

def demoRound (nowMs : Nat) : List KeeperOp :=
  [.observe nowMs demoKey (dueReading nowMs),demoBegin nowMs,demoRefund nowMs]

def supersededOps : List KeeperOp :=
  .entry demoSeat :: demoRound 2000 ++ demoRound 302000 ++ demoRound 602000 ++ demoRound 902000 ++
    [.observe 1202000 demoKey (dueReading 1202000),demoBegin 1202000,
      .observe 1202000 demoKey (modelReading 1202000),demoRefund 1202000,
      demoBegin 1502000,demoRefund 1502000]

/-- The steps of a run under a condition that can be checked. -/
def KeeperRun.checked (cfg : KeeperConfig) (check : KeeperRun → KeeperOp → Bool) (s : KeeperRun)
    (op : KeeperOp) : Option KeeperRun :=
  if check s op then s.step cfg op else none

section

variable {cfg : KeeperConfig} {check : KeeperRun → KeeperOp → Bool} {ops : List KeeperOp}

theorem checked_reachable {s : KeeperRun}
    (h : ops.foldlM (KeeperRun.checked cfg check) .start = some s) :
    Reachable KeeperStart (Under (KeeperStep cfg) fun s op => check s op = true) s := by
  refine Reachable.foldlM ?_ (.init rfl) h
  intro a op b hb
  unfold KeeperRun.checked at hb
  split at hb
  · next hc => exact ⟨op,hc,hb⟩
  · cases hb

theorem checked_run {q : KeeperRun → Bool}
    (h : ((ops.foldlM (KeeperRun.checked cfg check) .start).any q) = true) :
    ∃ s, Reachable KeeperStart (Under (KeeperStep cfg) fun s op => check s op = true) s ∧
      q s = true := by
  cases hs : ops.foldlM (KeeperRun.checked cfg check) .start with
  | none => simp [hs] at h
  | some s => exact ⟨s,checked_reachable hs,by simpa [hs] using h⟩

end

theorem superseded_refunded_again : ∃ s, Reachable KeeperStart
      (Under (KeeperStep demoConfig) fun s op => Disciplined demoConfig s op = true) s ∧
    maxNotSentPerGeneration < refundedSinceRearm (bookOf demoKey s.log) 1000 ∧
    rearmedIn (bookOf demoKey s.log) 1000 = 0 := by
  have hrun : ((supersededOps.foldlM (KeeperRun.checked demoConfig (Disciplined demoConfig))
      .start).any fun s => maxNotSentPerGeneration < refundedSinceRearm (bookOf demoKey s.log) 1000 &&
        rearmedIn (bookOf demoKey s.log) 1000 = 0) = true := by
    decide +kernel
  obtain ⟨s,hs,hq⟩ := checked_run hrun
  simp only [Bool.and_eq_true,decide_eq_true_eq] at hq
  exact ⟨s,hs,hq⟩

/-- A refunded attempt, one without a known outcome, and after a rearm a third one. -/
def rearmedOps : List KeeperOp :=
  .entry demoSeat :: demoRound 2000 ++
    [.observe 302000 demoKey (dueReading 302000),demoBegin 302000,
      .finish 302000 ⟨demoKey,1000,1⟩ (.ambiguous "timeout"),
      .observe 4000000 demoKey (dueReading 4000000),.rearm 4000000 demoKey,demoBegin 4000000]

theorem attempts_within_budget_rearmed : (∃ s, Reachable KeeperStart
        (Under (KeeperStep demoConfig) fun s op => Disciplined demoConfig s op = true) s ∧
      (begunIn (bookOf demoKey s.log) 1000 = 3 ∧ refundedIn (bookOf demoKey s.log) 1000 = 1 ∧
        rearmedIn (bookOf demoKey s.log) 1000 = 1) ∧
      begunIn (bookOf demoKey s.log) 1000 - refundedIn (bookOf demoKey s.log) 1000 ≤
        1 + rearmedIn (bookOf demoKey s.log) 1000) ∧
    (∃ s, Reachable KeeperStart (Under (KeeperStep demoConfig) fun s op =>
          Disciplined demoConfig s op = true ∧ BeginsTracked s op = true) s ∧
      (refundedIn (bookOf demoKey s.log) 1000 = 2 ∧
        refundedSinceRearm (bookOf demoKey s.log) 1000 = 1) ∧
      refundedSinceRearm (bookOf demoKey s.log) 1000 ≤ maxNotSentPerGeneration) := by
  constructor
  · have hrun : ((rearmedOps.foldlM (KeeperRun.checked demoConfig (Disciplined demoConfig))
        .start).any fun s => begunIn (bookOf demoKey s.log) 1000 = 3 ∧
          refundedIn (bookOf demoKey s.log) 1000 = 1 ∧
          rearmedIn (bookOf demoKey s.log) 1000 = 1) = true := by
      decide +kernel
    obtain ⟨s,hs,hq⟩ := checked_run hrun
    exact ⟨s,hs,of_decide_eq_true hq,(attempts_within_budget .default).1 s hs demoKey 1000⟩
  · have hrun : (((rearmedOps ++ [demoRefund 4000000]).foldlM
        (KeeperRun.checked demoConfig fun s op => Disciplined demoConfig s op && BeginsTracked s op)
        .start).any fun s => refundedIn (bookOf demoKey s.log) 1000 = 2 ∧
          refundedSinceRearm (bookOf demoKey s.log) 1000 = 1) = true := by
      decide +kernel
    obtain ⟨s,hs,hq⟩ := checked_run hrun
    simp only [Bool.and_eq_true] at hs
    exact ⟨s,hs,of_decide_eq_true hq,(attempts_within_budget .default).2 s hs demoKey 1000⟩

def KeeperRun.pollsOf (s : KeeperRun) (key : String) : List Poll :=
  s.polls.filter fun p => p.key = key

def Poll.reset (p : Poll) : Option Nat :=
  (p.obs.reading p.nowMs).bind fun reading => (weeklyReset reading.1).map (·.2)

/-- A poll succeeded, and by its reading the account was due for the generation `g`. -/
structure ProvenBy (cfg : KeeperConfig) (g : Nat) (poll : Poll) (windows : List WindowLimit)
    (limitReached : Option Bool) : Prop where
  succeeded : poll.obs.reading poll.nowMs = some (windows,limitReached)
  passed : g ≤ poll.nowMs
  headroom : accountWideHeadroom windows limitReached cfg.exhaustedAtPercent = true
  noLimit : limitReached ≠ some true
  noNewer : ∀ w r, weeklyReset windows = some (w,r) → r ≤ g

/-- The latest poll proves `g` due, and `g` is the latest weekly reset of the polls. -/
def CurrentProof (cfg : KeeperConfig) (s : KeeperRun) (key : String) (g : Nat) : Prop :=
  (∃ poll windows limitReached, (s.pollsOf key).head? = some poll ∧
    ProvenBy cfg g poll windows limitReached) ∧
  (∃ poll ∈ s.pollsOf key, poll.reset = some g) ∧
  ∀ poll ∈ s.pollsOf key, ∀ r, poll.reset = some r → r ≤ g

/-- A reading that keeps the account from every activation. -/
def refused (cfg : KeeperConfig) (windows : List WindowLimit) (limitReached : Option Bool) : Bool :=
  limitReached = some true ||
    windows.any fun w =>
      w.models = none && !WindowVerdict.isHeadroom (w.verdict cfg.exhaustedAtPercent)

/-- An attempt goes back to awaiting only if the latest poll failed, or its reading refuses the
account or shows account-wide headroom for the tracked generation. -/
def RefundsOnEvidence (cfg : KeeperConfig) (s : KeeperRun) : KeeperOp → Bool
  | .finish _ ticket outcome => s.state.accounts[ticket.key]?.all fun st =>
    !refunds ticket outcome st || outcome.refusesCredential || !st.lastPollOk ||
      refused cfg st.lastWindows st.lastLimitReached ||
      (st.generation = some ticket.generation &&
        accountWideHeadroom st.lastWindows st.lastLimitReached cfg.exhaustedAtPercent)
  | _ => true

structure Evident (cfg : KeeperConfig) (clock : Nat) (polls : List Poll) (l : Ledger)
    (ev : Evidence) : Prop where
  recorded : ev.pollOk = true → ∃ p rest, polls = p :: rest ∧ ev.pollMs = some p.nowMs ∧
    p.obs.reading p.nowMs = some (ev.windows,ev.limitReached)
  clock_le : ∀ ms, ev.pollMs = some ms → ms ≤ clock
  accepted : ∀ g, l.tracked = some g → ∃ p ∈ polls, p.reset = some g
  newest : ∀ p ∈ polls, ∀ r, p.reset = some r → ∃ g, l.tracked = some g ∧ r ≤ g
  passed : ∀ g, l.stage.generation = some g → ∃ ms, ev.pollMs = some ms ∧ g ≤ ms
  due : ev.pollOk = true → ∀ g, l.stage = .awaiting g ∨ l.stage = .unverified g →
    (l.tracked = some g ∧
      accountWideHeadroom ev.windows ev.limitReached cfg.exhaustedAtPercent = true) ∨
    (l.stage = .awaiting g ∧ refused cfg ev.windows ev.limitReached = true)

/-- An account that is missing has no polls. -/
def EvidentView (cfg : KeeperConfig) (clock : Nat) : Option AccountState × List Poll → Prop
  | (none,polls) => polls = []
  | (some st,polls) => Evident cfg clock polls st.ledger st.evidence

section

variable {limit g : Nat} {Due : Nat → Prop} {l l' : Ledger} (h : Polled limit Due l l')

include limit l h

theorem Polled.generation_or_due (hg : l'.stage.generation = some g) :
    l.stage.generation = some g ∨ Due g := by
  cases h with
  | failed => exact .inl hg
  | @expired k hk =>
    cases (l.conclude_generation limit k).symm.trans hg
    exact .inl (by rw [hk]; rfl)
  | settled fresh | moved hr => cases hg
  | kept hr hk => exact .inl (by simpa using hg)
  | @due k l' hk hr he =>
    cases he with
    | still hs => exact .inl (by simpa using hg)
    | concluded =>
      obtain rfl : k = g :=
        Option.some.inj ((Ledger.conclude_generation _ limit k).symm.trans hg)
      exact .inr hk

theorem Polled.due_of_fresh (hf : l'.fresh = true)
    (hs : l'.stage = .awaiting g ∨ l'.stage = .unverified g) : l'.tracked = some g ∧ Due g := by
  have hgen : l'.stage.generation = some g := by rcases hs with hs | hs <;> rw [hs] <;> rfl
  cases h with
  | failed | expired hk => cases hf
  | settled fresh | moved hr => cases hgen
  | kept hr hk =>
    have hstage : l.stage = .awaiting g ∨ l.stage = .unverified g := by simpa using hs
    simp [hk] at hstage
  | @due k l' hk hr he =>
    cases he with
    | still hstill =>
      obtain rfl : k = g := Option.some.inj (hstill.symm.trans hgen)
      exact ⟨l.track_tracked k,hk⟩
    | concluded =>
      obtain rfl : k = g :=
        Option.some.inj ((Ledger.conclude_generation _ limit k).symm.trans hgen)
      exact ⟨l.track_tracked k,hk⟩

end

section Invariant

variable {cfg : KeeperConfig} {clock clock' : Nat} {polls : List Poll} {st st' : AccountState}
  {key : String}

theorem Evident.mono {l : Ledger} {ev : Evidence} (h : Evident cfg clock polls l ev)
    (hle : clock ≤ clock') : Evident cfg clock' polls l ev :=
  { h with clock_le := fun ms hms => (h.clock_le ms hms).trans hle }

theorem Evident.polled (h : Evident cfg clock polls st.ledger st.evidence) {nowMs : Nat}
    (hle : clock ≤ nowMs) (obs : UsageObservation) :
    Evident cfg nowMs (⟨key,nowMs,obs⟩ :: polls) (observeAccount cfg nowMs key obs st).st.ledger
      (observeAccount cfg nowMs key obs st).st.evidence := by
  have hp := @observeAccount_polled cfg nowMs key obs st
  have hev := @observeAccount_evidence cfg nowMs key obs st
  have hgen : (observeAccount cfg nowMs key obs st).st.ledger.tracked =
      acceptReset st.ledger.tracked (Poll.reset ⟨key,nowMs,obs⟩) := observeAccount_generation obs st
  have hfresh : (observeAccount cfg nowMs key obs st).st.ledger.fresh =
      (observeAccount cfg nowMs key obs st).st.evidence.pollOk := rfl
  generalize (observeAccount cfg nowMs key obs st).st.ledger = l' at *
  generalize (observeAccount cfg nowMs key obs st).st.evidence = ev' at *
  have hms : ev'.pollMs = some nowMs := by
    rw [hev]
    split <;> rfl
  have hreading : ev'.pollOk = true → obs.reading nowMs = some (ev'.windows,ev'.limitReached) := by
    intro hok
    rw [hev] at hok ⊢
    split at hok
    · cases hok
    · next hr => simp [hr]
  refine ⟨?_,?_,?_,?_,?_,?_⟩
  · intro hok
    exact ⟨_,polls,rfl,hms,hreading hok⟩
  · intro ms h'
    exact (Option.some.inj (hms.symm.trans h')) ▸ le_rfl
  · intro g hg
    rw [hgen] at hg
    unfold acceptReset at hg
    split at hg
    · obtain ⟨p,hmem,hr⟩ := h.accepted g hg
      exact ⟨p,List.mem_cons_of_mem _ hmem,hr⟩
    next r hr =>
    split at hg
    · obtain ⟨p,hmem,hr⟩ := h.accepted g hg
      exact ⟨p,List.mem_cons_of_mem _ hmem,hr⟩
    · exact ⟨_,List.mem_cons_self,hr.trans hg⟩
  · intro p hmem r hr
    rw [hgen]
    unfold acceptReset
    rcases List.mem_cons.mp hmem with rfl | hmem
    · rw [hr]
      dsimp only
      split
      · next hback =>
        cases hg : st.ledger.tracked with
        | none => simp [hg] at hback
        | some g => exact ⟨g,rfl,Nat.le_of_lt (by simpa [hg] using hback)⟩
      · exact ⟨r,rfl,le_rfl⟩
    · obtain ⟨g,hg,hle'⟩ := h.newest p hmem r hr
      split
      · exact ⟨g,hg,hle'⟩
      next r' _ =>
      split
      · exact ⟨g,hg,hle'⟩
      · next hno =>
        have : g ≤ r' := by simpa [hg] using hno
        exact ⟨r',rfl,hle'.trans this⟩
  · intro g hg
    rcases hp.generation_or_due hg with hold | hdue
    · obtain ⟨ms,hms',hle'⟩ := h.passed g hold
      exact ⟨nowMs,hms,(hle'.trans (h.clock_le ms hms')).trans hle⟩
    · exact ⟨nowMs,hms,hdue.1⟩
  · intro hok g hs
    obtain ⟨htracked,-,windows,limitReached,hr,hh⟩ := hp.due_of_fresh (hfresh.trans hok) hs
    have hsame := (hreading hok).symm.trans hr
    simp only [Option.some.injEq,Prod.mk.injEq] at hsame
    exact .inl ⟨htracked,by rw [hsame.1,hsame.2]; exact hh⟩

section

variable {g : Nat} (h : Evident cfg clock polls st.ledger st.evidence)

include h

theorem Evident.begun (hs : st.ledger.stage = .awaiting g)
    (hl : st'.ledger = { st.ledger with stage := .pending g, spent := st.ledger.spent + 1 })
    (he : st'.evidence = { st.evidence with tried := true }) :
    Evident cfg clock polls st'.ledger st'.evidence := by
  rw [hl,he]
  refine ⟨h.recorded,h.clock_le,h.accepted,h.newest,fun k hk => ?_,fun _ k hk => ?_⟩
  · exact h.passed k (by rw [hs]; exact hk)
  · rcases hk with hk | hk <;> cases hk

theorem Evident.rearmed (hr : Rearmed g st.ledger st'.ledger) (he : st'.evidence = st.evidence) :
    Evident cfg clock polls st'.ledger st'.evidence := by
  rw [hr.after,he]
  refine ⟨h.recorded,h.clock_le,h.accepted,h.newest,fun k hk => ?_,fun hok k hk => ?_⟩
  · exact h.passed k (by rw [hr.stage]; exact hk)
  · obtain rfl : g = k := by simpa using hk
    rcases h.due hok g (.inr hr.stage) with hdue | ⟨hno,-⟩
    · exact .inl hdue
    · rw [hr.stage] at hno
      cases hno

end

section

variable {nowMs : Nat} {ticket : AttemptTicket} {outcome : AttemptOutcome}

theorem Evident.refunded (h : Evident cfg clock polls st.ledger st.evidence)
    (hr : refunds ticket outcome st = true)
    (hcond : outcome.refusesCredential = false → st.lastPollOk = true →
      refused cfg st.lastWindows st.lastLimitReached = true ∨
      (st.generation = some ticket.generation ∧
        accountWideHeadroom st.lastWindows st.lastLimitReached cfg.exhaustedAtPercent = true)) :
    Evident cfg clock polls (finishAccount cfg nowMs ticket outcome st).st.ledger
      (finishAccount cfg nowMs ticket outcome st).st.evidence := by
  obtain ⟨hs,hl,he,-⟩ := @finishAccount_refunds cfg nowMs st ticket outcome hr
  rw [hl,he]
  cases hc : outcome.refusesCredential with
  | true =>
    refine ⟨h.recorded,h.clock_le,h.accepted,h.newest,fun k hk => ?_,fun _ k hk => ?_⟩
    · cases hk
    · rcases hk with hk | hk <;> cases hk
  | false =>
    refine ⟨h.recorded,h.clock_le,h.accepted,h.newest,fun k hk => ?_,fun hok k hk => ?_⟩
    · exact h.passed k (by rw [hs]; exact hk)
    · obtain rfl : ticket.generation = k := by simpa using hk
      rcases hcond hc hok with hrefused | hdue
      · exact .inr ⟨rfl,hrefused⟩
      · exact .inl hdue

theorem refunds_on_evidence {s : KeeperRun}
    (hc : RefundsOnEvidence cfg s (.finish nowMs ticket outcome) = true)
    (hst : s.state.accounts[ticket.key]? = some st) (hr : refunds ticket outcome st = true)
    (hno : outcome.refusesCredential = false) (hok : st.lastPollOk = true) :
    refused cfg st.lastWindows st.lastLimitReached = true ∨
      (st.generation = some ticket.generation ∧
        accountWideHeadroom st.lastWindows st.lastLimitReached cfg.exhaustedAtPercent = true) := by
  simpa [RefundsOnEvidence,hst,hr,hno,hok] using hc

end

theorem evident_move {s : KeeperRun} {op : KeeperOp} {v v' : Option AccountState × List Poll}
    {e : List Entry} (hclock : op.nowMs?.all (clock ≤ ·) = true)
    (hc : RefundsOnEvidence cfg s op = true) (hv : s.state.accounts[key]? = v.1)
    (hm : AccountMove cfg op key v v' e) (h : EvidentView cfg clock v) :
    EvidentView cfg (op.nowMs?.getD clock) v' := by
  have hle : clock ≤ op.nowMs?.getD clock := by
    cases hnow : op.nowMs? with
    | none => exact le_rfl
    | some nowMs => simpa [hnow] using hclock
  cases hm with
  | same a polls =>
    cases a with
    | none => exact h
    | some st => exact Evident.mono h hle
  | @created st polls hl he =>
    obtain rfl : polls = [] := h
    show Evident _ _ _ _ _
    rw [hl,he]
    exact ⟨by simp,by simp,by simp,by simp,by simp [Stage.generation],by simp⟩
  | @kept st st' polls hl he =>
    show Evident _ _ _ _ _
    rw [hl,he]
    exact Evident.mono h hle
  | @polled st polls nowMs obs hop =>
    subst hop
    exact Evident.polled h hle obs
  | @begun st st' polls decidedMs nowMs g optedIn model hop hs hl he =>
    exact Evident.mono (Evident.begun h hs hl he) hle
  | @refunded st polls nowMs ticket outcome hop hkey hr =>
    subst hop hkey
    exact Evident.mono (Evident.refunded h hr (refunds_on_evidence hc hv hr)) hle
  | @rearmed st st' polls g hr he => exact Evident.mono (Evident.rearmed h hr he) hle
  | pruned hs => exact rfl

def AllEvident (cfg : KeeperConfig) (s : KeeperRun) : Prop :=
  ∀ key, EvidentView cfg s.clock (s.view key)

theorem allEvident_start : AllEvident cfg .start := by
  intro key
  have hnone : (KeeperRun.start.state.accounts)[key]? = none := Std.TreeMap.getElem?_emptyc
  unfold KeeperRun.view
  rw [hnone]
  rfl

theorem allEvident_step {s t : KeeperRun} {op : KeeperOp} (h : AllEvident cfg s)
    (hc : RefundsOnEvidence cfg s op = true) (hstep : KeeperStep cfg s op t) : AllEvident cfg t := by
  intro key
  obtain ⟨e,hm,-⟩ := step_moves hstep key
  obtain ⟨hclock,u,-,rfl⟩ := step_perform hstep
  exact evident_move hclock hc rfl hm (h key)

end Invariant

theorem refused_of_authorized {cfg : KeeperConfig} {g : Nat} {st : AccountState}
    (h : Authorized cfg g st) : refused cfg st.lastWindows st.lastLimitReached = false := by
  unfold refused
  rw [Bool.or_eq_false_iff,List.any_eq_false]
  refine ⟨by simpa using h.noLimit,fun w hw => ?_⟩
  simp only [Bool.and_eq_true,decide_eq_true_eq,Bool.not_eq_true',not_and,Bool.not_eq_false]
  exact h.headroom w hw

/-- In every run in which attempts are refunded on evidence, an activation that is decided has
its proof in the latest poll. -/
theorem activation_has_current_proof (cfg : KeeperConfig) (s : KeeperRun)
    (hs : Reachable KeeperStart
      (Under (KeeperStep cfg) fun s op => RefundsOnEvidence cfg s op = true) s)
    (nowMs : Nat) (key : String) (optedIn : Bool) (model : String) (g attempt : Nat)
    (hd : activationDecision s.state cfg nowMs key optedIn model = .activate g attempt) :
    CurrentProof cfg s key g := by
  have hall : AllEvident cfg s := by
    refine hs.invariant (AllEvident cfg) (fun a ha => ha ▸ allEvident_start) ?_
    rintro a b ha ⟨op,hc,hstep⟩
    exact allEvident_step ha hc hstep
  unfold activationDecision at hd
  split at hd
  · cases hd
  next st hst =>
  have hauth := decideAccount_activate hd
  have hev : Evident cfg s.clock (s.pollsOf key) st.ledger st.evidence := by
    have hview := hall key
    unfold KeeperRun.view at hview
    rwa [hst] at hview
  obtain ⟨htracked,hheadroom⟩ := (hev.due hauth.pollOk g (.inl hauth.stage)).resolve_right
    fun hno => by
      have := (refused_of_authorized hauth).symm.trans hno.2
      cases this
  have hnewest : ∀ poll ∈ s.pollsOf key, ∀ r, poll.reset = some r → r ≤ g := by
    intro poll hmem r hr
    obtain ⟨p,hp,hle⟩ := hev.newest poll hmem r hr
    exact (Option.some.inj (htracked.symm.trans hp)) ▸ hle
  refine ⟨?_,hev.accepted g htracked,hnewest⟩
  obtain ⟨poll,rest,hpolls,hms,hreading⟩ := hev.recorded hauth.pollOk
  refine ⟨poll,_,_,by rw [hpolls]; rfl,hreading,?_,hheadroom,hauth.noLimit,?_⟩
  · obtain ⟨ms,hms',hle⟩ := hev.passed g (by rw [hauth.stage]; rfl)
    exact (Option.some.inj (hms.symm.trans hms')) ▸ hle
  · intro w r hw
    refine hnewest poll (by rw [hpolls]; exact List.mem_cons_self) r ?_
    simp [Poll.reset,hreading,hw]

theorem activation_has_current_proof_due : ∃ s, Reachable KeeperStart
      (Under (KeeperStep demoConfig) fun s op => RefundsOnEvidence demoConfig s op = true) s ∧
    activationDecision s.state demoConfig 2000 demoKey true "gpt-5" = .activate 1000 1 ∧
    CurrentProof demoConfig s demoKey 1000 := by
  have hrun : (([.entry demoSeat,.observe 2000 demoKey (dueReading 2000)].foldlM
      (KeeperRun.checked demoConfig (RefundsOnEvidence demoConfig)) .start).any fun s =>
        activationDecision s.state demoConfig 2000 demoKey true "gpt-5" = .activate 1000 1) = true := by
    decide +kernel
  obtain ⟨s,hs,hq⟩ := checked_run hrun
  have hd := of_decide_eq_true hq
  exact ⟨s,hs,hd,activation_has_current_proof demoConfig s hs 2000 demoKey true "gpt-5" 1000 1 hd⟩

/-- An attempt is refunded after a reading with only a window of one model and a later reset. -/
def staleRefundOps : List KeeperOp :=
  [.entry demoSeat,.observe 2000 demoKey (dueReading 2000),demoBegin 2000,
    .observe 2000 demoKey (modelReading 2000),demoRefund 2000]

theorem superseded_activated : ∃ s, Reachable KeeperStart (Next (KeeperStep demoConfig)) s ∧
    activationDecision s.state demoConfig 302000 demoKey true "gpt-5" = .activate 1000 1 ∧
    ¬ CurrentProof demoConfig s demoKey 1000 := by
  have hrun : ((staleRefundOps.foldlM (KeeperRun.checked demoConfig fun _ _ => true) .start).any
      fun s => activationDecision s.state demoConfig 302000 demoKey true "gpt-5" = .activate 1000 1 &&
        (s.pollsOf demoKey).any fun p => p.reset = some 1500) = true := by
    decide +kernel
  obtain ⟨s,hs,hq⟩ := checked_run hrun
  simp only [Bool.and_eq_true,decide_eq_true_eq,List.any_eq_true] at hq
  obtain ⟨hd,poll,hmem,hreset⟩ := hq
  refine ⟨s,hs.mono Under.next,hd,fun hproof => ?_⟩
  exact absurd (hproof.2.2 poll hmem 1500 hreset) (by decide)

end Synaps.Keeper
