import Synaps.Lib.JsonText
import Synaps.Lib.Runs
import Synaps.Lib.Utf8
import Mathlib.Data.List.Sublists

/-!
The mirror of the message history that a client in full-history mode keeps.
-/

set_option autoImplicit false

namespace Synaps.Mirror

open Json

/-- A conversation without its messages; `info` stands for the fields that are handed
up as they came. -/
structure ConversationDigest (Info : Type) where
  info : Info
  messagesLen : Nat
  messagesHash : UInt64
  deriving DecidableEq

def feed (h : UInt64) (b : UInt8) : UInt64 := (h ^^^ b.toUInt64) * 0x00000100000001b3

def messagesHash (messages : List Value) : UInt64 :=
  messages.foldl (fun h m => feed ((Utf8.encode (print m)).foldl feed h) 0x1f) 0xcbf29ce484222325

variable {Info : Type}

def ConversationDigest.matches (d : ConversationDigest Info) (messages : List Value) : Bool :=
  d.messagesLen == messages.length && d.messagesHash == Mirror.messagesHash messages

def reservedQueryIdBase : Nat := 2 ^ 63

def digestResyncQueryId : Nat := reservedQueryIdBase

inductive WireEvent (Info : Type) where
  | conversation (digest : ConversationDigest Info)
  | queryResult (id : Nat) (value : Value)
  | messageHistory (messages : List Value)
  | attached (messages : List Value)
  | other

/-- What is handed up; a conversation is a digest with the mirror's messages. -/
inductive Event (Info : Type) where
  | conversation (digest : ConversationDigest Info) (messages : List Value)
  | queryResult (id : Nat) (value : Value)
  | messageHistory (messages : List Value)
  | attached (messages : List Value)
  | other

structure Transport (Info : Type) where
  messages : List Value
  pendingDigest : Option (ConversationDigest Info)

structure Absorbed (Info : Type) where
  transport : Transport Info
  event : Option (Event Info)
  query : Bool

def Transport.absorbConversation (t : Transport Info) (digest : ConversationDigest Info) :
    Absorbed Info :=
  if digest.matches t.messages then ⟨t,some (.conversation digest t.messages),false⟩
  else if digest.messagesLen = 0 then
    ⟨{ t with messages := [] },some (.conversation digest []),false⟩
  else ⟨{ t with pendingDigest := some digest },none,t.pendingDigest.isNone⟩

def Transport.absorbResync (t : Transport Info) (value : Value) : Absorbed Info :=
  let messages := value.asArray?.getD t.messages
  ⟨⟨messages,none⟩,t.pendingDigest.map (.conversation · messages),false⟩

def Transport.absorb (t : Transport Info) : WireEvent Info → Absorbed Info
  | .conversation digest => t.absorbConversation digest
  | .queryResult id value =>
    if id = digestResyncQueryId then t.absorbResync value
    else if reservedQueryIdBase ≤ id then ⟨t,none,false⟩
    else ⟨t,some (.queryResult id value),false⟩
  | .messageHistory messages => ⟨{ t with messages := messages },some (.messageHistory messages),false⟩
  | .attached messages => ⟨{ t with messages := messages },some (.attached messages),false⟩
  | .other => ⟨t,some .other,false⟩

def WireEvent.digest : WireEvent Info → Option (ConversationDigest Info)
  | .conversation digest => some digest
  | _ => none

def Event.digest : Event Info → Option (ConversationDigest Info)
  | .conversation digest _ => some digest
  | _ => none

def WireEvent.answers : WireEvent Info → Bool
  | .queryResult id _ => id == digestResyncQueryId
  | _ => false

/-- The transport, the number of queries the writer accepted that are not answered, and
the digests received and handed up so far. -/
structure State (Info : Type) where
  transport : Transport Info
  queries : Nat
  received : List (ConversationDigest Info)
  handed : List (ConversationDigest Info)

def State.record (s : State Info) (ev : WireEvent Info) (full : Bool) (r : Absorbed Info) :
    State Info :=
  ⟨r.transport,s.queries - ev.answers.toNat + (r.query && !full).toNat,
    s.received ++ ev.digest.toList,s.handed ++ (r.event.bind Event.digest).toList⟩

/-- One event; `full` if the queue of outgoing commands is. -/
def State.step (s : State Info) (ev : WireEvent Info) (full : Bool) : State Info :=
  s.record ev full (s.transport.absorb ev)

structure Arrival (Info : Type) where
  event : WireEvent Info
  full : Bool

/-- The daemon answers only queries that were sent. -/
inductive Step (s : State Info) : Arrival Info → State Info → Prop
  | absorb (ev : WireEvent Info) (full : Bool) (hq : ev.answers = true → 0 < s.queries) :
      Step s ⟨ev,full⟩ (s.step ev full)

def Init (s : State Info) : Prop :=
  s.transport.pendingDigest = none ∧ s.queries = 0 ∧ s.received = [] ∧ s.handed = []

/-- A digest that starts a query finds room for it, and no digest is handed up at once
while another is held back. -/
def Orderly (s : State Info) (a : Arrival Info) : Prop :=
  ∀ digest, a.event = .conversation digest →
    if digest.matches s.transport.messages = true ∨ digest.messagesLen = 0 then
      s.transport.pendingDigest = none
    else s.transport.pendingDigest = none → a.full = false

/-- A digest that is held back is asked for, and is the newest of those handed up when
the answer comes. -/
structure Inv (s : State Info) : Prop where
  asked : s.transport.pendingDigest ≠ none → 0 < s.queries
  order : (s.handed ++ s.transport.pendingDigest.toList).Sublist s.received

variable {s : State Info}

theorem inv_passed (h : Inv s) {ev : WireEvent Info} {full : Bool} {r : Absorbed Info}
    (hev : ev.answers = false) (hd : ev.digest = none)
    (hp : r.transport.pendingDigest = s.transport.pendingDigest)
    (hr : r.event.bind Event.digest = none) (hq : r.query = false) : Inv (s.record ev full r) := by
  refine ⟨fun hne => ?_,?_⟩
  · have hasked := h.asked (hp ▸ hne)
    simpa [State.record,hev,hq] using hasked
  · simpa [State.record,hd,hr,hp] using h.order

variable {digest : ConversationDigest Info}

theorem inv_handed (h : Inv s) {messages : List Value} {full : Bool} {r : Absorbed Info}
    (hnone : s.transport.pendingDigest = none)
    (hp : r.transport.pendingDigest = s.transport.pendingDigest)
    (hr : r.event = some (.conversation digest messages)) :
    Inv (s.record (.conversation digest) full r) := by
  have hhanded : s.handed.Sublist s.received := (List.sublist_append_left _ _).trans h.order
  refine ⟨fun hne => absurd (hp.trans hnone) hne,?_⟩
  simpa [State.record,hp,hnone,hr,WireEvent.digest,Event.digest] using hhanded

theorem inv_conversation (h : Inv s) {full : Bool} (ha : Orderly s ⟨.conversation digest,full⟩) :
    Inv (s.step (.conversation digest) full) := by
  have hg := ha digest rfl
  rw [State.step,Transport.absorb,Transport.absorbConversation]
  split
  · rename_i hm
    rw [if_pos (.inl hm)] at hg
    exact inv_handed h hg rfl rfl
  · rename_i hm
    split
    · rename_i hz
      rw [if_pos (.inr hz)] at hg
      exact inv_handed h hg rfl rfl
    · rename_i hz
      rw [if_neg (not_or.mpr ⟨hm,hz⟩)] at hg
      have hhanded : s.handed.Sublist s.received := (List.sublist_append_left _ _).trans h.order
      refine ⟨fun _ => ?_,?_⟩
      · cases hp : s.transport.pendingDigest with
        | none =>
          obtain rfl : full = false := hg hp
          simp [State.record]
        | some d =>
          have hq := h.asked (by simp [hp])
          simpa [State.record,WireEvent.answers] using hq
      · simpa [State.record,WireEvent.digest] using hhanded

theorem inv_resync (h : Inv s) (value : Value) (full : Bool) :
    Inv (s.record (.queryResult digestResyncQueryId value) full (s.transport.absorbResync value)) := by
  refine ⟨fun hp => absurd rfl hp,?_⟩
  have horder := h.order
  cases hp : s.transport.pendingDigest with
  | none => simpa [State.record,Transport.absorbResync,WireEvent.digest,hp] using horder
  | some d => simpa [State.record,Transport.absorbResync,WireEvent.digest,Event.digest,hp] using horder

theorem inv_step {t : State Info} {a : Arrival Info} (h : Inv s) (ha : Orderly s a)
    (hst : Step s a t) : Inv t := by
  cases hst with
  | absorb ev full hq =>
    cases ev with
    | conversation digest => exact inv_conversation h ha
    | queryResult id value =>
      rw [State.step,Transport.absorb]
      split
      · rename_i hid
        subst hid
        exact inv_resync h value full
      · rename_i hid
        have hanswer : (.queryResult id value : WireEvent Info).answers = false := by
          simpa [WireEvent.answers] using hid
        split
        all_goals exact inv_passed h hanswer rfl rfl rfl rfl
    | messageHistory messages | attached messages | other => exact inv_passed h rfl rfl rfl rfl rfl

/-- In a run whose events are all orderly, a digest that is held back was asked for and is
handed up by the answer, and digests are handed up in the order they came in. -/
theorem mirror_run {s : State Info} (hs : Runs.Reachable Init (Runs.Under Step Orderly) s) :
    (∀ digest, s.transport.pendingDigest = some digest → 0 < s.queries ∧
      ∀ value, ∃ messages, (s.transport.absorb (.queryResult digestResyncQueryId value)).event =
        some (.conversation digest messages)) ∧
    s.handed.Sublist s.received := by
  have h : Inv s := by
    refine hs.invariant Inv ?_ ?_
    · rintro s ⟨hp,hq,hr,hh⟩
      refine ⟨fun hne => absurd hp hne,?_⟩
      simp [hp,hr,hh]
    · rintro a b ha ⟨arrival,hact,hab⟩
      exact inv_step ha hact hab
  refine ⟨fun digest hp => ⟨h.asked (by simp [hp]),fun value => ?_⟩,
    (List.sublist_append_left _ _).trans h.order⟩
  refine ⟨value.asArray?.getD s.transport.messages,?_⟩
  simp [Transport.absorb,Transport.absorbResync,hp]

def freshState : State Nat := ⟨⟨[],none⟩,0,[],[]⟩

/-- Digests of a history of one message and of an empty one. -/
def oneMessage : ConversationDigest Nat := ⟨0,1,0⟩

def noMessages : ConversationDigest Nat := ⟨1,0,0⟩

theorem reach_fresh : Runs.Reachable Init (Runs.Under Step Orderly) freshState :=
  .init ⟨rfl,rfl,rfl,rfl⟩

/-- With the queue full a digest is held back for good; and a digest that is handed up at
once is followed by the older one that was held back. -/
theorem mirror_run_fails : (∃ s : State Nat, Runs.Reachable Init (Runs.Next Step) s ∧
      s.transport.pendingDigest = some oneMessage ∧ s.queries = 0) ∧
    ∃ s : State Nat, Runs.Reachable Init (Runs.Next Step) s ∧
      s.received = [oneMessage,noMessages] ∧ s.handed = [noMessages,oneMessage] := by
  have h₀ := reach_fresh.mono Runs.Under.next
  refine ⟨?_,?_⟩
  · have h₁ := h₀.step ⟨_,.absorb (.conversation oneMessage) true (by simp [WireEvent.answers])⟩
    exact ⟨_,h₁,rfl,rfl⟩
  · have h₁ := h₀.step ⟨_,.absorb (.conversation oneMessage) false (by simp [WireEvent.answers])⟩
    have h₂ := h₁.step ⟨_,.absorb (.conversation noMessages) false (by simp [WireEvent.answers])⟩
    have h₃ := h₂.step ⟨_,.absorb (.queryResult digestResyncQueryId .null) false (fun _ => by decide)⟩
    exact ⟨_,h₃,rfl,rfl⟩

def asked : State Nat := freshState.step (.conversation oneMessage) false

theorem mirror_run_asked : asked.transport.pendingDigest = some oneMessage ∧ 0 < asked.queries ∧
    ∃ messages, (asked.transport.absorb (.queryResult digestResyncQueryId .null)).event =
      some (.conversation oneMessage messages) := by
  have horderly : Orderly freshState ⟨.conversation oneMessage,false⟩ := by
    rintro digest ⟨⟩
    have hmismatch : ¬(oneMessage.matches freshState.transport.messages = true ∨
        oneMessage.messagesLen = 0) := by decide
    rw [if_neg hmismatch]
    exact fun _ => rfl
  have h₁ := reach_fresh.step ⟨_,horderly,.absorb _ _ (by simp [WireEvent.answers])⟩
  have hpending : asked.transport.pendingDigest = some oneMessage := rfl
  obtain ⟨hq,hanswer⟩ := (mirror_run h₁).1 oneMessage hpending
  exact ⟨hpending,hq,hanswer .null⟩

end Synaps.Mirror
