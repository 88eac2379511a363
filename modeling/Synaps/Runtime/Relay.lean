import Synaps.Lib.Text
import Synaps.Lib.Segments

/-!
The relay between a turn and its caller. Preview deltas are merged, trimmed and dropped so that a
caller who does not read keeps no more than a fixed number of bytes; all other events pass whole.
-/

set_option autoImplicit false

namespace Text

def trimFront : Nat → List Char → List Char
  | _,[] => []
  | 0,text => text
  | want + 1,c :: cs => trimFront (want + 1 - c.utf8Size) cs

def splitBoundary (n : Nat) (text : List Char) : List Char :=
  if truncateBytes n text = [] then text.take 1 else truncateBytes n text

section

variable (want : Nat) (text : List Char)

theorem trimFront_suffix : trimFront want text <:+ text := by
  induction text generalizing want with
  | nil => cases want <;> exact List.suffix_refl _
  | cons c cs ih =>
    cases want with
    | zero => exact List.suffix_refl _
    | succ want => exact (ih _).trans (List.suffix_cons c cs)

theorem byteLen_trimFront : byteLen (trimFront want text) ≤ byteLen text - want := by
  induction text generalizing want with
  | nil => cases want <;> exact Nat.zero_le _
  | cons c cs ih =>
    cases want with
    | zero => exact Nat.le_refl _
    | succ want =>
      have hrest := ih (want + 1 - c.utf8Size)
      rw [trimFront,byteLen_cons]
      omega

theorem byteLen_trimFront_le : byteLen (trimFront want text) ≤ byteLen text :=
  Nat.le_trans (byteLen_trimFront want text) (Nat.sub_le _ _)

end

theorem splitBoundary_initial (n : Nat) (text : List Char) : splitBoundary n text <+: text := by
  unfold splitBoundary
  split
  · exact List.take_prefix 1 text
  · exact truncateBytes_initial n text

theorem byteLen_splitBoundary {n : Nat} (hn : 4 ≤ n) (text : List Char) :
    byteLen (splitBoundary n text) ≤ n := by
  unfold splitBoundary
  split
  · cases text with
    | nil => exact Nat.zero_le _
    | cons c cs =>
      have hc := c.utf8Size_le_four
      rw [List.take_succ_cons,List.take_zero,byteLen_cons,byteLen_nil]
      omega
  · exact byteLen_truncateBytes n text

theorem splitBoundary_pos {text : List Char} (h : text ≠ []) (n : Nat) :
    0 < byteLen (splitBoundary n text) := by
  have hne : splitBoundary n text ≠ [] := by
    unfold splitBoundary
    split
    · simpa using h
    · assumption
  obtain ⟨c,cs,hc⟩ := List.exists_cons_of_ne_nil hne
  have hpos := c.utf8Size_pos
  rw [hc,byteLen_cons]
  omega

end Text

namespace Synaps.Relay

open Text List Option

def relayDeltaRetainedBudgetBytes : Nat := 256 * 1024

def relayCoalesceThresholdBytes : Nat := 64 * 1024

def relayForwardChunkBytes : Nat := 16 * 1024

/-- The events of a stream: the preview deltas, and all others. -/
inductive StreamEvent (σ : Type) where
  | text (s : List Char)
  | thinking (s : List Char)
  | toolUseDelta (toolId : String) (delta : List Char)
  | toolResultDelta (toolId : String) (delta : List Char)
  | semantic (event : σ)

namespace StreamEvent

variable {σ : Type}

def payload : StreamEvent σ → Option (List Char)
  | .text s | .thinking s => some s
  | .toolUseDelta _ delta | .toolResultDelta _ delta => some delta
  | .semantic _ => none

def deltaLen (event : StreamEvent σ) : Option Nat := event.payload.map byteLen

def withPayload (chunk : List Char) : StreamEvent σ → StreamEvent σ
  | .text _ => .text chunk
  | .thinking _ => .thinking chunk
  | .toolUseDelta toolId _ => .toolUseDelta toolId chunk
  | .toolResultDelta toolId _ => .toolResultDelta toolId chunk
  | .semantic event => .semantic event

def tryCoalesce : StreamEvent σ → StreamEvent σ → Option (StreamEvent σ)
  | .text a,.text b => some (.text (a ++ b))
  | .thinking a,.thinking b => some (.thinking (a ++ b))
  | .toolUseDelta ia da,.toolUseDelta ib db =>
    if ia = ib then some (.toolUseDelta ia (da ++ db)) else none
  | .toolResultDelta ia da,.toolResultDelta ib db =>
    if ia = ib then some (.toolResultDelta ia (da ++ db)) else none
  | _,_ => none

def isSemantic : StreamEvent σ → Bool
  | .semantic _ => true
  | _ => false

def deltaBytes (event : StreamEvent σ) : Nat := event.deltaLen.getD 0

end StreamEvent

open StreamEvent

structure RelayState (σ : Type) where
  pending : List (StreamEvent σ)
  retained : Nat
  produced : Nat
  forwarded : Nat
  dropped : Nat

namespace RelayState

variable {σ : Type}

def new : RelayState σ := ⟨[],0,0,0,0⟩

def dropOldest (excess : Nat) : List (StreamEvent σ) → Option (List (StreamEvent σ) × Nat)
  | [] => none
  | event :: rest =>
    match event.payload with
    | none => (dropOldest excess rest).map fun r => (event :: r.1,r.2)
    | some s =>
      if byteLen s ≤ excess then some (rest,byteLen s)
      else some (event.withPayload (trimFront excess s) :: rest,byteLen s - byteLen (trimFront excess s))

def pendingBytes (pending : List (StreamEvent σ)) : Nat := (pending.map deltaBytes).sum

section

variable {event : StreamEvent σ} {s : List Char} (h : event.payload = some s)

include s h

theorem payload_withPayload (chunk : List Char) :
    (event.withPayload chunk).payload = some chunk := by
  cases event <;> first | rfl | cases h

theorem deltaBytes_of_payload : event.deltaBytes = byteLen s := by
  rw [deltaBytes,deltaLen,h]
  rfl

end

variable {pending pending' : List (StreamEvent σ)}

theorem pendingBytes_append (a b : List (StreamEvent σ)) :
    pendingBytes (a ++ b) = pendingBytes a + pendingBytes b := by
  simp [pendingBytes]

theorem pendingBytes_cons (e : StreamEvent σ) (es : List (StreamEvent σ)) :
    pendingBytes (e :: es) = e.deltaBytes + pendingBytes es := by
  simp [pendingBytes]

variable {excess cut : Nat}

section

variable (h : dropOldest excess pending = some (pending',cut))

include h

theorem dropOldest_some :
    ∃ before event s after, pending = before ++ event :: after ∧ event.payload = some s ∧
      (pending' = before ++ after ∧ cut = byteLen s ∨ excess < byteLen s ∧
          pending' = before ++ event.withPayload (trimFront excess s) :: after ∧
          cut = byteLen s - byteLen (trimFront excess s)) := by
  induction pending generalizing pending' with
  | nil => cases h
  | cons event rest ih =>
    rw [dropOldest] at h
    cases hs : event.payload with rw [hs] at h
    | none =>
      obtain ⟨r,hr,heq⟩ := map_eq_some_iff.mp h
      cases heq
      obtain ⟨before,e,s,after,rfl,he,⟨hr,hc⟩ | ⟨hlong,hr,hc⟩⟩ := ih hr
      · exact ⟨event :: before,e,s,after,rfl,he,.inl ⟨congrArg _ hr,hc⟩⟩
      · exact ⟨event :: before,e,s,after,rfl,he,.inr ⟨hlong,congrArg _ hr,hc⟩⟩
    | some s =>
      simp only at h
      split at h
      · cases h
        exact ⟨[],event,s,rest,rfl,hs,.inl ⟨rfl,rfl⟩⟩
      · rename_i hlong
        cases h
        exact ⟨[],event,s,rest,rfl,hs,.inr ⟨Nat.lt_of_not_le hlong,rfl,rfl⟩⟩

theorem dropOldest_bytes : pendingBytes pending' + cut = pendingBytes pending := by
  obtain ⟨before,event,s,after,rfl,hs,⟨rfl,rfl⟩ | ⟨-,rfl,rfl⟩⟩ := dropOldest_some h
  · simp only [pendingBytes_append,pendingBytes_cons,deltaBytes_of_payload hs]
    omega
  · have hle := byteLen_trimFront_le excess s
    simp only [pendingBytes_append,pendingBytes_cons,deltaBytes_of_payload hs,
      deltaBytes_of_payload (payload_withPayload hs (trimFront excess s))]
    omega

end

theorem dropOldest_smaller (hover : 0 < excess)
    (h : dropOldest excess pending = some (pending',cut)) :
    pending'.length + pendingBytes pending' < pending.length + pendingBytes pending := by
  have hbytes := dropOldest_bytes h
  obtain ⟨before,event,s,after,rfl,hs,⟨rfl,rfl⟩ | ⟨hlong,rfl,rfl⟩⟩ := dropOldest_some h
  · simp only [length_append,length_cons] at hbytes ⊢
    omega
  · have hle := byteLen_trimFront excess s
    simp only [length_append,length_cons] at hbytes ⊢
    omega

def makeRoom (need : Nat) (s : RelayState σ) : RelayState σ :=
  if s.retained + need ≤ relayDeltaRetainedBudgetBytes then s
  else
    match _h : dropOldest (s.retained + need - relayDeltaRetainedBudgetBytes) s.pending with
    | none => s
    | some (pending,cut) =>
      makeRoom need { s with pending, retained := s.retained - cut, dropped := s.dropped + cut }
termination_by s.pending.length + pendingBytes s.pending
decreasing_by
  exact dropOldest_smaller (by omega) _h

def makeRoomFor (incoming : Nat) (s : RelayState σ) : RelayState σ :=
  s.makeRoom (min incoming relayDeltaRetainedBudgetBytes)

def pushDelta (event : StreamEvent σ) (s : RelayState σ) : RelayState σ :=
  let coalesced :=
    if s.retained > relayCoalesceThresholdBytes then
      s.pending.getLast?.bind fun tail => tail.tryCoalesce event
    else none
  match coalesced with
  | some merged => { s with pending := s.pending.dropLast ++ [merged] }
  | none => { s with pending := s.pending ++ [event] }

def ingest (event : StreamEvent σ) (s : RelayState σ) : RelayState σ :=
  match event.payload with
  | none => { s with pending := s.pending ++ [event] }
  | some payload =>
    let bytes := byteLen payload
    let s := { s with produced := s.produced + bytes }.makeRoomFor bytes
    let kept :=
      if bytes > relayDeltaRetainedBudgetBytes then
        trimFront (bytes - relayDeltaRetainedBudgetBytes) payload
      else payload
    let s := { s with
      dropped := s.dropped + (bytes - byteLen kept)
      retained := s.retained + byteLen kept }
    s.pushDelta (event.withPayload kept)

def nextOut (s : RelayState σ) : RelayState σ × Option (StreamEvent σ) :=
  match s.pending with
  | [] => (s,none)
  | event :: rest =>
    match event.payload with
    | none => ({ s with pending := rest },some event)
    | some payload =>
      if byteLen payload ≤ relayForwardChunkBytes then
        ({ s with
          pending := rest
          retained := s.retained - byteLen payload
          forwarded := s.forwarded + byteLen payload },some event)
      else
        let chunk := splitBoundary relayForwardChunkBytes payload
        let remainder := payload.drop chunk.length
        let pending := if remainder = [] then rest else event.withPayload remainder :: rest
        ({ s with
          pending
          retained := s.retained - byteLen chunk
          forwarded := s.forwarded + byteLen chunk },some (event.withPayload chunk))

end RelayState

inductive DeltaClass where
  | text
  | thinking
  | toolUse (toolId : String)
  | toolResult (toolId : String)
  deriving DecidableEq

inductive Token (σ : Type) where
  | char (cls : DeltaClass) (c : Char)
  | semantic (event : σ)

variable {σ : Type}

def Token.isSemantic : Token σ → Bool
  | .char _ _ => false
  | .semantic _ => true

def StreamEvent.classOf : StreamEvent σ → Option DeltaClass
  | .text _ => some .text
  | .thinking _ => some .thinking
  | .toolUseDelta toolId _ => some (.toolUse toolId)
  | .toolResultDelta toolId _ => some (.toolResult toolId)
  | .semantic _ => none

def StreamEvent.tokens : StreamEvent σ → List (Token σ)
  | .text s => s.map (.char .text)
  | .thinking s => s.map (.char .thinking)
  | .toolUseDelta toolId delta => delta.map (.char (.toolUse toolId))
  | .toolResultDelta toolId delta => delta.map (.char (.toolResult toolId))
  | .semantic event => [.semantic event]

def tokensOf (events : List (StreamEvent σ)) : List (Token σ) := events.flatMap StreamEvent.tokens

theorem tokensOf_append (a b : List (StreamEvent σ)) : tokensOf (a ++ b) = tokensOf a ++ tokensOf b :=
  flatMap_append

theorem tokensOf_cons (e : StreamEvent σ) (es : List (StreamEvent σ)) :
    tokensOf (e :: es) = e.tokens ++ tokensOf es := flatMap_cons

theorem tokens_delta {event : StreamEvent σ} {s : List Char} (h : event.payload = some s) :
    ∃ cls, event.tokens = s.map (Token.char cls) ∧
      ∀ chunk, (event.withPayload chunk).tokens = chunk.map (Token.char cls) := by
  cases event with
  | text s' =>
    cases h
    exact ⟨.text,rfl,fun _ => rfl⟩
  | thinking s' =>
    cases h
    exact ⟨.thinking,rfl,fun _ => rfl⟩
  | toolUseDelta toolId delta =>
    cases h
    exact ⟨.toolUse toolId,rfl,fun _ => rfl⟩
  | toolResultDelta toolId delta =>
    cases h
    exact ⟨.toolResult toolId,rfl,fun _ => rfl⟩
  | semantic event => cases h

theorem tryCoalesce_spec {tail incoming merged : StreamEvent σ}
    (h : tail.tryCoalesce incoming = some merged) :
    merged.tokens = tail.tokens ++ incoming.tokens ∧
      merged.deltaBytes = tail.deltaBytes + incoming.deltaBytes := by
  unfold tryCoalesce at h
  split at h
  · cases h
    exact ⟨map_append,byteLen_append _ _⟩
  · cases h
    exact ⟨map_append,byteLen_append _ _⟩
  · split at h
    · rename_i heq
      cases h
      rw [heq]
      exact ⟨map_append,byteLen_append _ _⟩
    · cases h
  · split at h
    · rename_i heq
      cases h
      rw [heq]
      exact ⟨map_append,byteLen_append _ _⟩
    · cases h
  · cases h

structure Thinned (kept given : List (Token σ)) : Prop where
  sublist : kept.Sublist given
  semantic : kept.countP Token.isSemantic = given.countP Token.isSemantic

namespace Thinned

variable {a b c d : List (Token σ)}

theorem refl (a : List (Token σ)) : Thinned a a := ⟨.refl _,rfl⟩

theorem trans (h₁ : Thinned a b) (h₂ : Thinned b c) : Thinned a c :=
  ⟨h₁.sublist.trans h₂.sublist,h₁.semantic.trans h₂.semantic⟩

theorem append (h₁ : Thinned a b) (h₂ : Thinned c d) : Thinned (a ++ c) (b ++ d) where
  sublist := h₁.sublist.append h₂.sublist
  semantic := by rw [countP_append,countP_append,h₁.semantic,h₂.semantic]

theorem countP_chars (cls : DeltaClass) (s : List Char) :
    (s.map (Token.char cls) : List (Token σ)).countP Token.isSemantic = 0 := by
  rw [countP_eq_zero]
  simp [Token.isSemantic]

theorem chars {cls : DeltaClass} {s s' : List Char} (h : s.Sublist s') :
    Thinned (s.map (Token.char cls) : List (Token σ)) (s'.map (Token.char cls)) :=
  ⟨h.map _,by rw [countP_chars,countP_chars]⟩

theorem filter_eq (h : Thinned a b) : a.filter Token.isSemantic = b.filter Token.isSemantic := by
  refine (h.sublist.filter _).eq_of_length ?_
  rw [← countP_eq_length_filter,← countP_eq_length_filter,h.semantic]

end Thinned

namespace RelayState

variable {pending : List (StreamEvent σ)}

theorem dropOldest_thinned {excess cut : Nat} {pending' : List (StreamEvent σ)}
    (h : dropOldest excess pending = some (pending',cut)) :
    Thinned (tokensOf pending') (tokensOf pending) := by
  obtain ⟨before,event,s,after,rfl,hs,hcut⟩ := dropOldest_some h
  obtain ⟨cls,hevent,hpayload⟩ := tokens_delta hs
  rcases hcut with ⟨rfl,-⟩ | ⟨-,rfl,-⟩
  · rw [tokensOf_append,tokensOf_append,tokensOf_cons,hevent]
    exact (Thinned.refl _).append ((Thinned.chars (nil_sublist s)).append (.refl _))
  · rw [tokensOf_append,tokensOf_append,tokensOf_cons,tokensOf_cons,hevent,hpayload]
    exact (Thinned.refl _).append
      ((Thinned.chars (trimFront_suffix excess s).sublist).append (.refl _))

theorem dropOldest_none {excess : Nat} (h : dropOldest excess pending = none) :
    pendingBytes pending = 0 := by
  induction pending with
  | nil => rfl
  | cons event rest ih =>
    rw [dropOldest] at h
    cases hs : event.payload with rw [hs] at h
    | none =>
      have hrest := ih (map_eq_none_iff.mp h)
      have hevent : event.deltaBytes = 0 := by
        rw [deltaBytes,deltaLen,hs]
        rfl
      simp only [pendingBytes,map_cons,sum_cons] at hrest ⊢
      omega
    | some s =>
      simp only at h
      split at h
      · cases h
      · cases h

/-- The room is made, and only characters are lost for it. -/
structure RoomMade (need : Nat) (s s' : RelayState σ) : Prop where
  retained : s'.retained = pendingBytes s'.pending
  fits : s'.retained + need ≤ relayDeltaRetainedBudgetBytes
  produced : s'.produced = s.produced
  forwarded : s'.forwarded = s.forwarded
  dropped : s'.dropped + s'.retained = s.dropped + s.retained
  thinned : Thinned (tokensOf s'.pending) (tokensOf s.pending)

theorem makeRoom_spec {need : Nat} (hneed : need ≤ relayDeltaRetainedBudgetBytes)
    (s : RelayState σ) (hs : s.retained = pendingBytes s.pending) :
    RoomMade need s (s.makeRoom need) := by
  induction s using makeRoom.induct need with
  | case1 s hfits =>
    rw [makeRoom,if_pos hfits]
    exact ⟨hs,hfits,rfl,rfl,rfl,.refl _⟩
  | case2 s hfull hnone =>
    have hzero := dropOldest_none hnone
    omega
  | case3 s hfull pending cut hdrop ih =>
    have hbytes := dropOldest_bytes hdrop
    have hmade := ih (by simp only; omega)
    have hstep : s.makeRoom need = makeRoom need
        { s with pending, retained := s.retained - cut, dropped := s.dropped + cut } := by
      rw [makeRoom,if_neg hfull]
      split
      · rename_i hnone
        rw [hdrop] at hnone
        cases hnone
      · rename_i hsome
        rw [hdrop] at hsome
        cases hsome
        rfl
    have hdropped := hmade.dropped
    simp only at hdropped
    rw [hstep]
    exact {
      retained := hmade.retained
      fits := hmade.fits
      produced := hmade.produced
      forwarded := hmade.forwarded
      dropped := by omega
      thinned := hmade.thinned.trans (dropOldest_thinned hdrop) }

theorem pushDelta_spec (event : StreamEvent σ) (s : RelayState σ) :
    ∃ pending, s.pushDelta event = { s with pending } ∧
      tokensOf pending = tokensOf s.pending ++ event.tokens ∧
      pendingBytes pending = pendingBytes s.pending + event.deltaBytes := by
  have hpushed : tokensOf (s.pending ++ [event]) = tokensOf s.pending ++ event.tokens ∧
      pendingBytes (s.pending ++ [event]) = pendingBytes s.pending + event.deltaBytes := by
    rw [tokensOf_append,pendingBytes_append]
    exact ⟨by simp [tokensOf],by simp [pendingBytes]⟩
  unfold pushDelta
  simp only
  split
  · rename_i merged hmerged
    split at hmerged
    · obtain ⟨tail,htail,hmerge⟩ := bind_eq_some_iff.mp hmerged
      obtain ⟨htokens,hbytes⟩ := tryCoalesce_spec hmerge
      have hsplit : s.pending = s.pending.dropLast ++ [tail] :=
        (dropLast_append_getLast? tail htail).symm
      refine ⟨_,rfl,?_,?_⟩
      · rw [tokensOf_append,hsplit,dropLast_concat,tokensOf_append]
        simp [tokensOf,htokens]
      · rw [pendingBytes_append,hsplit,dropLast_concat,pendingBytes_append]
        simp [pendingBytes,hbytes,Nat.add_assoc]
    · cases hmerged
  · exact ⟨_,rfl,hpushed⟩

end RelayState

/-- A relay with the events that went in and those that came out. -/
structure Session (σ : Type) where
  relay : RelayState σ
  ingested : List (StreamEvent σ)
  handedOut : List (StreamEvent σ)

inductive RelayCall (σ : Type) where
  | ingest (event : StreamEvent σ)
  | nextOut

namespace Session

def new : Session σ := ⟨.new,[],[]⟩

def call (s : Session σ) : RelayCall σ → Session σ
  | .ingest event => { s with relay := s.relay.ingest event, ingested := s.ingested ++ [event] }
  | .nextOut =>
    let (relay,out) := s.relay.nextOut
    { s with relay, handedOut := s.handedOut ++ out.toList }

end Session

open RelayState

structure Sound (s : Session σ) : Prop where
  retained : s.relay.retained = pendingBytes s.relay.pending
  budget : s.relay.retained ≤ relayDeltaRetainedBudgetBytes
  conserved : s.relay.produced = s.relay.forwarded + s.relay.dropped + s.relay.retained
  thinned : Thinned (tokensOf (s.handedOut ++ s.relay.pending)) (tokensOf s.ingested)
  chunks : ∀ event ∈ s.handedOut, event.deltaBytes ≤ relayForwardChunkBytes

variable {s : Session σ}

theorem Sound.ingest (h : Sound s) (event : StreamEvent σ) : Sound (s.call (.ingest event)) := by
  obtain ⟨relay,ingested,handedOut⟩ := s
  have hthinned := h.thinned
  simp only [tokensOf_append] at hthinned
  simp only [Session.call,RelayState.ingest]
  cases hs : event.payload with
  | none =>
    have hbytes : event.deltaBytes = 0 := by
      rw [deltaBytes,deltaLen,hs]
      rfl
    refine ⟨?_,h.budget,h.conserved,?_,h.chunks⟩
    · simp only [pendingBytes_append]
      rw [h.retained]
      simp [pendingBytes,hbytes]
    · simp only [tokensOf_append,← append_assoc]
      exact hthinned.append (.refl _)
  | some payload =>
    have hmade := makeRoom_spec (Nat.min_le_right (byteLen payload) relayDeltaRetainedBudgetBytes)
      { relay with produced := relay.produced + byteLen payload } h.retained
    obtain ⟨cls,hevent,hpayload⟩ := tokens_delta hs
    simp only [RelayState.makeRoomFor]
    generalize RelayState.makeRoom _ _ = made at hmade ⊢
    -- what is kept of the payload
    obtain ⟨kept,hkept,hsuffix,hlen⟩ : ∃ kept, (if byteLen payload > relayDeltaRetainedBudgetBytes then
        trimFront (byteLen payload - relayDeltaRetainedBudgetBytes) payload else payload) = kept ∧
        kept.Sublist payload ∧ byteLen kept ≤ byteLen payload ∧
          byteLen kept ≤ min (byteLen payload) relayDeltaRetainedBudgetBytes := by
      refine ⟨_,rfl,?_⟩
      split
      · have hcut := byteLen_trimFront (byteLen payload - relayDeltaRetainedBudgetBytes) payload
        exact ⟨(trimFront_suffix _ _).sublist,byteLen_trimFront_le _ _,by omega⟩
      · exact ⟨.refl _,Nat.le_refl _,by omega⟩
    rw [hkept]
    have hkeptBytes := deltaBytes_of_payload (payload_withPayload hs kept)
    obtain ⟨pending,hpush,htokens,hbytes⟩ := pushDelta_spec (event.withPayload kept) { made with
        dropped := made.dropped + (byteLen payload - byteLen kept)
        retained := made.retained + byteLen kept }
    simp only at htokens hbytes
    rw [hpush]
    have hretained := hmade.retained
    have hfits := hmade.fits
    have hproduced := hmade.produced
    have hforwarded := hmade.forwarded
    have hdropped := hmade.dropped
    have hconserved := h.conserved
    simp only at hproduced hforwarded hdropped hconserved
    refine ⟨?_,?_,?_,?_,h.chunks⟩ <;> simp only
    · omega
    · omega
    · omega
    · simp only [tokensOf_append,htokens,hpayload,← append_assoc]
      refine ((Thinned.append (.refl _) hmade.thinned).trans hthinned).append ?_
      simp only [tokensOf,flatMap_cons,flatMap_nil,append_nil,hevent]
      exact .chars hsuffix

theorem Sound.handOut (h : Sound s) {out : StreamEvent σ} {pending : List (StreamEvent σ)}
    (htokens : out.tokens ++ tokensOf pending = tokensOf s.relay.pending)
    (hbytes : out.deltaBytes + pendingBytes pending = pendingBytes s.relay.pending)
    (hchunk : out.deltaBytes ≤ relayForwardChunkBytes) :
    Sound { s with
      relay := { s.relay with
        pending
        retained := s.relay.retained - out.deltaBytes
        forwarded := s.relay.forwarded + out.deltaBytes }
      handedOut := s.handedOut ++ [out] } := by
  have hretained := h.retained
  have hbudget := h.budget
  have hconserved := h.conserved
  refine ⟨?_,?_,?_,?_,?_⟩
  · simp only
    omega
  · simp only
    omega
  · simp only
    omega
  · have hthinned := h.thinned
    rw [tokensOf_append,← htokens] at hthinned
    simpa [tokensOf_append,tokensOf_cons,tokensOf] using hthinned
  · exact forall_mem_append.mpr ⟨h.chunks,forall_mem_singleton.mpr hchunk⟩

theorem Sound.nextOut (h : Sound s) : Sound (s.call .nextOut) := by
  obtain ⟨⟨pending,retained,produced,forwarded,dropped⟩,ingested,handedOut⟩ := s
  cases pending with
  | nil => simpa [Session.call,RelayState.nextOut] using h
  | cons event rest =>
    simp only [Session.call,RelayState.nextOut]
    cases hs : event.payload with
    | none =>
      have hbytes : event.deltaBytes = 0 := by
        rw [deltaBytes,deltaLen,hs]
        rfl
      have hout := @h.handOut σ _ event rest (tokensOf_cons event rest).symm
        (pendingBytes_cons event rest).symm (by rw [hbytes]; exact Nat.zero_le _)
      rwa [hbytes] at hout
    | some payload =>
      have hbytes := deltaBytes_of_payload hs
      simp only
      by_cases hshort : byteLen payload ≤ relayForwardChunkBytes
      · have hout := @h.handOut σ _ event rest (tokensOf_cons event rest).symm
          (pendingBytes_cons event rest).symm (by rw [hbytes]; exact hshort)
        rw [hbytes] at hout
        simp only [if_pos hshort]
        exact hout
      · simp only [if_neg hshort]
        obtain ⟨cls,hevent,hpayload⟩ := tokens_delta hs
        have hchunk := byteLen_splitBoundary (by decide : 4 ≤ relayForwardChunkBytes) payload
        obtain ⟨remainder,hsplit⟩ := splitBoundary_initial relayForwardChunkBytes payload
        generalize splitBoundary relayForwardChunkBytes payload = chunk at hchunk hsplit ⊢
        have hdrop : payload.drop chunk.length = remainder := by rw [← hsplit,drop_left]
        have hchunkBytes := deltaBytes_of_payload (payload_withPayload hs chunk)
        have hrestBytes := deltaBytes_of_payload (payload_withPayload hs remainder)
        have hsum : byteLen payload = byteLen chunk + byteLen remainder := by
          rw [← hsplit,byteLen_append]
        -- an empty remainder says nothing, whether it stays or not
        have hpending : tokensOf (if remainder = [] then rest
              else event.withPayload remainder :: rest) =
              remainder.map (Token.char cls) ++ tokensOf rest ∧
            pendingBytes (if remainder = [] then rest else event.withPayload remainder :: rest) =
              byteLen remainder + pendingBytes rest := by
          split
          · rename_i hempty
            rw [hempty]
            exact ⟨rfl,(Nat.zero_add _).symm⟩
          · rw [tokensOf_cons,pendingBytes_cons,hpayload,hrestBytes]
            exact ⟨rfl,rfl⟩
        have hout := @h.handOut σ _ (event.withPayload chunk)
          (if remainder = [] then rest else event.withPayload remainder :: rest)
          (by rw [hpending.1,hpayload,tokensOf_cons,hevent,← hsplit,map_append,append_assoc])
          (by rw [hpending.2,hchunkBytes,pendingBytes_cons,hbytes,hsum,Nat.add_assoc])
          (by rw [hchunkBytes]; exact hchunk)
        rw [hchunkBytes] at hout
        rw [hdrop]
        exact hout

def semantics (events : List (StreamEvent σ)) : List σ :=
  events.filterMap fun
    | .semantic event => some event
    | _ => none

def classText (cls : DeltaClass) (events : List (StreamEvent σ)) : List Char :=
  events.flatMap fun event => if event.classOf = some cls then event.payload.getD [] else []

def segments (events : List (StreamEvent σ)) : List (List (StreamEvent σ)) :=
  Segments.split StreamEvent.isSemantic events

variable (events : List (StreamEvent σ))

theorem semantics_eq : semantics events = ((tokensOf events).filter Token.isSemantic).filterMap fun
      | .semantic event => some event
      | .char _ _ => none := by
  induction events with
  | nil => rfl
  | cons event events ih =>
    rw [tokensOf_cons,filter_append,filterMap_append,← ih]
    cases event with
    | semantic event => rfl
    | _ => simp [semantics,StreamEvent.tokens,Token.isSemantic]

def Token.charOf (cls : DeltaClass) : Token σ → Option Char
  | .char cls' c => if cls' = cls then some c else none
  | .semantic _ => none

theorem filterMap_charOf (cls cls' : DeltaClass) (s : List Char) :
    (s.map (Token.char cls') : List (Token σ)).filterMap (Token.charOf cls) =
      if cls' = cls then s else [] := by
  rw [filterMap_map]
  by_cases h : cls' = cls
  · rw [if_pos h,show (Token.charOf cls ∘ Token.char cls' : Char → Option Char) = some from
      funext fun c => if_pos h,filterMap_some]
  · rw [if_neg h,filterMap_eq_nil_iff]
    exact fun c _ => if_neg h

theorem classText_eq (cls : DeltaClass) (events : List (StreamEvent σ)) :
    classText cls events = (tokensOf events).filterMap (Token.charOf cls) := by
  induction events with
  | nil => rfl
  | cons event events ih =>
    rw [tokensOf_cons,filterMap_append,← ih,classText,flatMap_cons]
    congr 1
    cases event with
    | semantic event => rfl
    | _ =>
      simp only [StreamEvent.classOf,StreamEvent.tokens,StreamEvent.payload,getD_some,
        some.injEq,filterMap_charOf]

theorem tokens_segments :
    Segments.split Token.isSemantic (tokensOf events) = (segments events).map tokensOf := by
  refine Segments.split_flatMap (fun event h => ?_) (fun event h token htoken => ?_) events
  · cases event with
    | semantic event => exact ⟨.semantic event,rfl,rfl⟩
    | _ => cases h
  · cases event with
    | semantic event => cases h
    | _ =>
      obtain ⟨c,-,rfl⟩ := mem_map.mp htoken
      rfl

theorem calls_sound (calls : List (RelayCall σ)) : Sound (calls.foldl Session.call Session.new) := by
  induction calls using reverseRecOn with
  | nil => exact ⟨rfl,Nat.zero_le _,rfl,.refl _,fun event h => absurd h not_mem_nil⟩
  | append_singleton calls call ih =>
    rw [foldl_append,foldl_cons,foldl_nil]
    cases call with
    | ingest event => exact ih.ingest event
    | nextOut => exact ih.nextOut

/-- After any calls: the gauge is right and within the budget, no byte is unaccounted for, the
semantic events are all there in order, between two of them the text of each class has lost
characters at most, and every chunk is small. -/
theorem relay_drops_only_previews (calls : List (RelayCall σ)) :
    let s := calls.foldl Session.call Session.new
    s.relay.retained = pendingBytes s.relay.pending ∧
      s.relay.retained ≤ relayDeltaRetainedBudgetBytes ∧
      s.relay.produced = s.relay.forwarded + s.relay.dropped + s.relay.retained ∧
      semantics (s.handedOut ++ s.relay.pending) = semantics s.ingested ∧
      Forall₂ (fun kept given => ∀ cls, (classText cls kept).Sublist (classText cls given))
        (segments (s.handedOut ++ s.relay.pending)) (segments s.ingested) ∧
      ∀ event ∈ s.handedOut, ∀ len, event.deltaLen = some len → len ≤ relayForwardChunkBytes := by
  intro s
  have h : Sound s := calls_sound calls
  refine ⟨h.retained,h.budget,h.conserved,?_,?_,fun event hevent len hlen => ?_⟩
  · rw [semantics_eq,semantics_eq,h.thinned.filter_eq]
  · have hsegments := Segments.split_sublist h.thinned.sublist h.thinned.semantic
    rw [tokens_segments,tokens_segments,forall₂_map_left_iff,forall₂_map_right_iff] at hsegments
    refine hsegments.imp fun kept given hsub cls => ?_
    rw [classText_eq,classText_eq]
    exact hsub.filterMap _
  · have hchunk := h.chunks event hevent
    rwa [deltaBytes,hlen] at hchunk

/-- Each call hands out a whole entry, or some bytes of a long one. -/
theorem nextOut_smaller {s : RelayState σ} (h : s.retained = pendingBytes s.pending) :
    s.nextOut.1.pending.length + s.nextOut.1.retained ≤ s.pending.length + s.retained - 1 := by
  obtain ⟨pending,retained,produced,forwarded,dropped⟩ := s
  cases pending with
  | nil =>
    obtain rfl : retained = 0 := h
    exact Nat.le_refl _
  | cons event rest =>
    rw [length_cons,RelayState.nextOut]
    simp only [pendingBytes_cons] at h ⊢
    split
    · simp only
      omega
    · rename_i payload hs
      rw [deltaBytes_of_payload hs] at h
      split
      · simp only
        omega
      · rename_i hlong
        have hne : payload ≠ [] := by
          rintro rfl
          exact hlong (Nat.zero_le _)
        have hpos := splitBoundary_pos hne relayForwardChunkBytes
        simp only
        split
        · omega
        · rw [length_cons]
          omega

theorem Sound.drain (n : Nat) {s : Session σ} (h : Sound s)
    (hn : s.relay.pending.length + s.relay.retained ≤ n) :
    let t := (replicate n .nextOut).foldl Session.call s
    Sound t ∧ t.relay.pending = [] ∧ t.ingested = s.ingested := by
  induction n generalizing s with
  | zero => exact ⟨h,length_eq_zero_iff.mp (Nat.le_zero.mp (Nat.le_of_add_right_le hn)),rfl⟩
  | succ n ih =>
    have := nextOut_smaller h.retained
    exact ih h.nextOut (by simp only [Session.call]; omega)

/-- After any calls, as many reads as entries and bytes are held empty the relay: what was not
dropped is forwarded, and every semantic event is handed out. -/
theorem relay_drains (calls : List (RelayCall σ)) :
    let s := calls.foldl Session.call Session.new
    let t := (replicate (s.relay.pending.length + s.relay.retained) .nextOut).foldl Session.call s
    t.relay.pending = [] ∧ t.relay.produced = t.relay.forwarded + t.relay.dropped ∧
      semantics t.handedOut = semantics s.ingested := by
  intro s t
  obtain ⟨h,hpending,hingested⟩ : Sound t ∧ _ := (calls_sound calls).drain _ (Nat.le_refl _)
  have hretained := h.retained
  have hsemantic := h.thinned.filter_eq
  rw [hpending] at hretained hsemantic
  rw [append_nil,hingested] at hsemantic
  refine ⟨hpending,?_,?_⟩
  · rw [h.conserved,hretained]
    rfl
  · rw [semantics_eq,semantics_eq,hsemantic]

end Synaps.Relay
