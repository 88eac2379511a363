import Synaps.Store.Save

/-!
The display projection of a session's messages, and its tail.
-/

set_option autoImplicit false

namespace Synaps.Display

open Json List

inductive DisplayItem where
  | user (text : String)
  | thinking (text : String)
  | text (text : String)
  | toolUse (toolId toolName input : String)
  deriving Repr, DecidableEq

structure DisplayTail where
  items : List DisplayItem
  omitted : Nat
  times : List (Option String)

def itemTimes (times : List (Option String)) : List (Option String) :=
  if times.all Option.isNone then [] else times

def timeOf (msg : Value) : Option String := (msg.get? Store.messageAtKey).bind Value.asStr?

def isEventPayload (content : String) : Bool :=
  "<event ".toList.isPrefixOf content.toList && "</event>".toList.isSuffixOf content.toList

def skipped (msg : Value) : Bool :=
  match (msg.index "content").asStr? with
  | some content =>
      decide ("<context-summary>".toList <:+: content.toList) || isEventPayload content
  | none => false

def blockItem (block : Value) : Option DisplayItem :=
  match (block.index "type").asStr? with
  | some "thinking" => (block.index "thinking").asStr?.map .thinking
  | some "text" => (block.index "text").asStr?.map .text
  | some "tool_use" =>
      some (.toolUse ((block.index "id").asStr?.getD "") ((block.index "name").asStr?.getD "")
        (String.ofList (print (block.index "input"))))
  | _ => none

def itemsOf (msg : Value) : List DisplayItem :=
  if skipped msg then [] else
  match (msg.index "role").asStr? with
  | some "user" => ((msg.index "content").asStr?.map DisplayItem.user).toList
  | some "assistant" => ((msg.index "content").asArray?.getD []).filterMap blockItem
  | _ => []

def blockCounts (block : Value) : Bool :=
  match (block.index "type").asStr? with
  | some "thinking" => (block.index "thinking").asStr?.isSome
  | some "text" => (block.index "text").asStr?.isSome
  | some "tool_use" => true
  | _ => false

def countItemsOf (msg : Value) : Nat :=
  if skipped msg then 0 else
  match (msg.index "role").asStr? with
  | some "user" => (msg.index "content").asStr?.isSome.toNat
  | some "assistant" => ((msg.index "content").asArray?.getD []).countP blockCounts
  | _ => 0

def displayItems (msgs : List Value) : List DisplayItem := msgs.flatMap itemsOf

def timedItems (msgs : List Value) : List DisplayItem × List (Option String) :=
  msgs.foldl (fun acc m =>
    let items := acc.1 ++ itemsOf m
    (items,acc.2 ++ List.replicate (items.length-acc.2.length) (timeOf m))) ([],[])

def group (m : Value) : List DisplayItem × Option String :=
  (itemsOf m,if (itemsOf m).isEmpty then none else timeOf m)

/-- The loop from the back: `msgs` newest first. Returns the groups, newest first, and the
messages it did not reach. -/
def walk (maxItems : Nat) (msgs : List Value) (held : Nat) :
    List (List DisplayItem × Option String) × List Value :=
  match msgs with
  | [] => ([],[])
  | m :: older =>
    if held < maxItems then
      let r := walk maxItems older (held+(itemsOf m).length)
      (group m :: r.1,r.2)
    else ([],m :: older)

def displayTail (msgs : List Value) (maxItems : Nat) : DisplayTail :=
  if maxItems = 0 then ⟨(timedItems msgs).1,0,itemTimes (timedItems msgs).2⟩
  else
    let r := walk maxItems msgs.reverse 0
    let items := r.1.reverse.flatMap Prod.fst
    let times := r.1.reverse.flatMap fun g => List.replicate g.1.length g.2
    let extra := items.length-maxItems
    ⟨items.drop extra,(r.2.reverse.map countItemsOf).sum+extra,itemTimes (times.drop extra)⟩

/-- The time of the message each display item comes from. -/
def originTimes (msgs : List Value) : List (Option String) :=
  msgs.flatMap fun m => (itemsOf m).map fun _ => timeOf m

theorem isSome_blockItem (block : Value) : (blockItem block).isSome = blockCounts block := by
  unfold blockItem blockCounts
  split <;> simp

theorem countItemsOf_eq (msg : Value) : countItemsOf msg = (itemsOf msg).length := by
  unfold countItemsOf itemsOf
  split
  · rfl
  · split
    · cases (msg.index "content").asStr? <;> rfl
    · rw [length_filterMap_eq_countP]
      simp only [isSome_blockItem]
    · rfl

theorem sum_countItemsOf (msgs : List Value) :
    (msgs.map countItemsOf).sum = (displayItems msgs).length := by
  rw [displayItems,length_flatMap]
  exact congrArg sum (map_congr_left fun m _ => countItemsOf_eq m)

@[simp] theorem length_originTimes (msgs : List Value) :
    (originTimes msgs).length = (displayItems msgs).length := by
  simp [originTimes,displayItems,length_flatMap]

theorem timedItems_eq (msgs : List Value) :
    timedItems msgs = (displayItems msgs,originTimes msgs) := by
  -- the accumulator holds the items and times of the messages read
  induction msgs using reverseRecOn with
  | nil => rfl
  | append_singleton msgs m ih =>
    rw [timedItems,foldl_append,← timedItems,ih]
    simp [displayItems,originTimes]

theorem group_times (m : Value) :
    replicate (group m).1.length (group m).2 = (itemsOf m).map fun _ => timeOf m := by
  unfold group
  cases itemsOf m <;> simp [replicate_succ]

/-- The walk takes a segment from the back, and stops early only with the cap met. -/
theorem walk_spec (maxItems : Nat) (msgs : List Value) (held : Nat) :
    ∃ taken, msgs = taken ++ (walk maxItems msgs held).2 ∧
      (walk maxItems msgs held).1 = taken.map group ∧
      ((walk maxItems msgs held).2 = [] ∨ maxItems ≤ held+(displayItems taken).length) := by
  induction msgs generalizing held with
  | nil => exact ⟨[],rfl,rfl,.inl rfl⟩
  | cons m older ih =>
    unfold walk
    split
    · obtain ⟨taken,hmsgs,hgroups,hstop⟩ := ih (held+(itemsOf m).length)
      refine ⟨m :: taken,congrArg (m :: ·) hmsgs,congrArg (group m :: ·) hgroups,hstop.imp_right ?_⟩
      simp [displayItems]
      omega
    · exact ⟨[],rfl,rfl,.inr (by omega)⟩

theorem itemTimes_of_ne_nil {times : List (Option String)} (h : itemTimes times ≠ []) :
    itemTimes times = times := by
  unfold itemTimes at h ⊢
  split <;> simp_all

def shown (cap n : Nat) : Nat := if cap = 0 then n else min cap n

/-- The tail is the projection of the whole history, cut to its last items: the same for
the items, the number left out and the times. -/
theorem displayTail_eq (msgs : List Value) (cap : Nat) :
    let n := (displayItems msgs).length
    let front := n-shown cap n
    (displayTail msgs cap).items = (displayItems msgs).drop front ∧
      (displayTail msgs cap).omitted = n-(displayTail msgs cap).items.length ∧
      ((displayTail msgs cap).times ≠ [] →
        (displayTail msgs cap).times.length = (displayTail msgs cap).items.length ∧
          (displayTail msgs cap).times = (originTimes msgs).drop front) := by
  by_cases hcap : cap = 0
  · simp only [displayTail,shown,if_pos hcap,timedItems_eq,Nat.sub_self,drop_zero,true_and]
    exact fun h => by simp [itemTimes_of_ne_nil h]
  obtain ⟨taken,hmsgs,hgroups,hstop⟩ := walk_spec cap msgs.reverse 0
  generalize hr : (walk cap msgs.reverse 0).2.reverse = head at hmsgs
  have hall : msgs = head ++ taken.reverse := by
    rw [← reverse_reverse msgs,hmsgs,← hr]
    simp
  have hitems : displayItems msgs = displayItems head ++ displayItems taken.reverse := by
    simp [hall,displayItems]
  have htimes : originTimes msgs = originTimes head ++ originTimes taken.reverse := by
    simp [hall,originTimes]
  have hlen : (displayItems taken.reverse).length = (displayItems taken).length := by
    simp [displayItems,length_flatMap,sum_reverse]
  have hfront : (displayItems msgs).length-shown cap (displayItems msgs).length =
      (displayItems head).length+((displayItems taken.reverse).length-cap) := by
    have hn := congrArg length hitems
    rw [length_append] at hn
    rw [shown,if_neg hcap]
    rcases hstop with h | h
    · have hnil : (displayItems head).length = 0 := by simp [← hr,h,displayItems]
      omega
    · omega
  have htail : displayTail msgs cap =
      ⟨(displayItems taken.reverse).drop ((displayItems taken.reverse).length-cap),
        (displayItems head).length+((displayItems taken.reverse).length-cap),
        itemTimes ((originTimes taken.reverse).drop
          ((displayItems taken.reverse).length-cap))⟩ := by
    simp only [displayTail,if_neg hcap,hr,hgroups,sum_countItemsOf,← map_reverse,
      flatMap_map,group_times]
    rfl
  simp only [htail,hfront]
  rw [hitems,htimes]
  refine ⟨(drop_length_add_append ..).symm,?_,fun h => ?_⟩
  · simp only [length_append,length_drop]
    omega
  · rw [itemTimes_of_ne_nil h,← length_originTimes head,drop_length_add_append]
    simp

end Synaps.Display
