import Synaps.Archive.Store
import Synaps.Lib.Runs

/-!
Runs of an archive directory. What was forgotten stays forgotten, what was sealed is sealed
once, and the pages of a segment are its messages, whatever publications fail.
-/

set_option autoImplicit false

namespace Synaps.Archive

open Json History Outcome Runs List

structure Returned where
  reference : ArchiveRef
  note : String
  projection : ArchiveProjection

/-- The directory, with what the calls made of it: the segments that seals wrote, whether or
not they returned, the ids that forgets buried, whether or not they returned, the ids that a
forget returned for, and what seals returned. -/
structure State where
  dir : Dir
  written : List Segment
  buried : List String
  forgotten : List String
  returned : List Returned

inductive Init : State → Prop where
  | empty : Init ⟨fun _ => none,[],[],[],[]⟩

/-- One call on the directory of a scope. The fresh id, what becomes of the publication, the
logical id, the redactor, the history and the note are arbitrary; `S` holds what the run
hashes. -/
inductive Step (D : Deps) (scope : String) (S : Set (List UInt8)) : State → State → Prop where
  | sealing (s : State) (redactor : Option (String → String)) (key id : String) (w : Publish)
      (messages : List Value) (note : String) (p : ArchiveProjection) (dir : Dir)
      (result : Except ArchiveError (ArchiveRef × String)) (written : List Segment)
      (hid : isId id = true) (hfresh : id ∉ s.written.map (·.id))
      (hp : projectHashed D redactor (digestParts D [bytesOf key]) messages note = .ok p)
      (hS : projectionInput p.logicalId p.sourceMessageCount p.messages ∈ S)
      (hseal : sealWithNote D scope redactor (digestParts D [bytesOf key]) id w messages note s.dir =
        (dir,result))
      (hwritten : dir = s.dir ∧ written = s.written ∨
        dir ≠ s.dir ∧ written = s.written ++ [segmentOf id p]) :
      Step D scope S s { s with
        dir := dir
        written := written
        returned := s.returned ++ (result.toOption.map fun r => ⟨r.1,r.2,p⟩).toList }
  | rejected (s : State) (redactor : Option (String → String)) (key id : String) (w : Publish)
      (messages : List Value) (note : String) (e : ArchiveError)
      (hp : projectHashed D redactor (digestParts D [bytesOf key]) messages note = .error e) :
      Step D scope S s { s with
        dir := (sealWithNote D scope redactor (digestParts D [bytesOf key]) id w messages note
          s.dir).1 }
  | forgetting (s : State) (w : Publish) (id : String) (dir : Dir)
      (result : Except ArchiveError Unit) (buried : List String)
      (hforget : forget D scope w id s.dir = (dir,result))
      (hburied : dir = s.dir ∧ buried = s.buried ∨ dir ≠ s.dir ∧ buried = id :: s.buried) :
      Step D scope S s { s with
        dir := dir
        buried := buried
        forgotten := if result.toBool then id :: s.forgotten else s.forgotten }
  | reading (s : State) : Step D scope S s s

/-- What is asked of SHA-256: its results are hex digests, and it has no collision among
what the run hashes. -/
structure Hashes (D : Deps) (S : Set (List UInt8)) : Prop where
  hex : ∀ bytes, isHexDigest (D.sha256 bytes) = true
  injective : Set.InjOn D.sha256 S

theorem projectionDigest_ok {D : Deps} {logical digest : String} {count : Nat}
    {messages : List ArchivedMessage}
    (h : projectionDigest D logical count messages = .ok digest) :
    digest = D.sha256 (projectionInput logical count messages) ∧
      (Utf8.encode (messagesText messages)).length < 2 ^ 64 := by
  obtain ⟨text,hjson,h⟩ := bind_ok h
  refine ⟨(Except.ok.inj h).symm,?_⟩
  simp only [boundedJson] at hjson
  split at hjson
  · cases hjson
  · rename_i hlimit
    have hbound : maxSegmentBytes < 2 ^ 64 := by decide
    exact (Nat.le_of_not_lt hlimit).trans_lt hbound

theorem length_bytesOf_hex {s : String} (h : isHexDigest s = true) :
    (bytesOf s).length < 2 ^ 64 := by
  have hsize : s.utf8ByteSize = 64 := by
    simp only [isHexDigest,Bool.and_eq_true,decide_eq_true_eq] at h
    exact h.1
  rw [bytesOf,Utf8.length_encode_toList,hsize]
  decide

section

variable {D : Deps} {scope : String} {g : Segment} {p : ArchiveProjection}

theorem matches_of_digest {S : Set (List UInt8)} (hash : Hashes D S) (hg : g.Valid D scope)
    (hgS : projectionInput g.logical g.count g.messages ∈ S)
    (hlogical : isHexDigest p.logicalId = true)
    (hp : Sealable D p.logicalId p.digest p.sourceMessageCount p.messages p.note)
    (hpS : projectionInput p.logicalId p.sourceMessageCount p.messages ∈ S)
    (hdigest : p.digest = g.digest) : g.Matches p := by
  obtain ⟨hgd,hgl⟩ := projectionDigest_ok hg.sealable.digest
  obtain ⟨hpd,hpl⟩ := projectionDigest_ok hp.digest
  have hinput := hash.injective hpS hgS (hpd.symm.trans (hdigest.trans hgd))
  have hbound : maxMessages < 2 ^ 64 := by decide
  obtain ⟨hl,hc,hm⟩ := projectionInput_injective (length_bytesOf_hex hlogical)
    (length_bytesOf_hex hg.logical) (hp.count_le.trans_lt hbound)
    (hg.sealable.count_le.trans_lt hbound) hpl hgl hinput
  exact ⟨hl,hc,hm⟩

theorem digest_of_matches {redactor logical messages note} (hg : g.Valid D scope)
    (hp : projectHashed D redactor logical messages note = .ok p) (h : g.Matches p) :
    p.digest = g.digest := by
  obtain ⟨hlogical,hsealable⟩ := projectHashed_sealable hp
  have hpd := hsealable.digest
  rw [← hlogical,h.logical,h.count,h.messages,hg.sealable.digest] at hpd
  exact (Except.ok.inj hpd).symm

end

structure Held (D : Deps) (scope : String) (S : Set (List UInt8)) (s : State) : Prop where
  stored : Stored D scope s.dir s.written s.buried
  hashed : ∀ g ∈ s.written, projectionInput g.logical g.count g.messages ∈ S
  buried : ∀ id ∈ s.buried, id ∈ s.written.map (·.id)
  forgotten : ∀ id ∈ s.forgotten, id ∈ s.buried
  returned : ∀ e ∈ s.returned, ∃ g ∈ s.written,
    g.Matches e.projection ∧ e.reference = g.reference ∧ e.note = g.note

section Steps

variable {D : Deps} {scope : String} {S : Set (List UInt8)} {s : State}

theorem held_init (h : Init s) : Held D scope S s := by
  cases h
  refine ⟨⟨fun slot => by simp,by simp,by simp [totalBytes],by simp,by simp,by simp⟩,?_,?_,?_,?_⟩ <;>
    simp

variable {p : ArchiveProjection} {result : Except ArchiveError (ArchiveRef × String)}

theorem held_kept (h : Held D scope S s)
    (hresult : ∀ r, result = .ok r → ∃ g ∈ s.written, g.Matches p ∧ r = (g.reference,g.note)) :
    Held D scope S { s with
      returned := s.returned ++ (result.toOption.map fun r => ⟨r.1,r.2,p⟩).toList } where
  stored := h.stored
  hashed := h.hashed
  buried := h.buried
  forgotten := h.forgotten
  returned e he := by
    rcases mem_append.mp he with he | he
    · exact h.returned e he
    cases result with
    | error _ => simp [Except.toOption] at he
    | ok r =>
      obtain ⟨g,hg,hm,rfl⟩ := hresult r rfl
      simp only [Except.toOption,Option.map_some,Option.toList_some,mem_singleton] at he
      subst he
      exact ⟨g,hg,hm,rfl,rfl⟩

variable {id : String}

theorem valid_segmentOf (hash : Hashes D S) {key : String} (hid : isId id = true)
    (hlogical : p.logicalId = digestParts D [bytesOf key])
    (hp : Sealable D p.logicalId p.digest p.sourceMessageCount p.messages p.note)
    (hsize : (recordBytes ((segmentOf id p).record scope [])).length ≤ maxSegmentBytes) :
    (segmentOf id p).Valid D scope where
  logical := by
    rw [segmentOf,hlogical]
    exact hash.hex _
  id := hid
  digestHex := by
    rw [segmentOf,(projectionDigest_ok hp.digest).1]
    exact hash.hex _
  sealable := hp
  size := hsize

theorem held_append (h : Held D scope S s) (hvalid : (segmentOf id p).Valid D scope)
    (hS : projectionInput p.logicalId p.sourceMessageCount p.messages ∈ S)
    (hfresh : id ∉ s.written.map (·.id)) (hnew : ∀ g ∈ s.written, g.digest ≠ p.digest)
    (hlt : s.written.length < maxSegments)
    (hsize : totalBytes scope s.buried s.written +
      (slotBytes scope s.buried (segmentOf id p)).length ≤ maxStoreBytes) :
    Held D scope S { s with
      dir := Function.update s.dir s.written.length
        (some (slotBytes scope s.buried (segmentOf id p)))
      written := s.written ++ [segmentOf id p] } where
  stored := stored_append h.stored hvalid hfresh (fun hd => by
      obtain ⟨g,hg,heq⟩ := mem_map.mp hd
      exact hnew g hg heq) hlt hsize
  hashed g hg := by
    rcases mem_append.mp hg with hg | hg
    · exact h.hashed g hg
    · rw [mem_singleton.mp hg]
      exact hS
  buried i hi := by
    rw [map_append,mem_append]
    exact .inl (h.buried i hi)
  forgotten := h.forgotten
  returned e he := by
    obtain ⟨g,hg,hrest⟩ := h.returned e he
    exact ⟨g,mem_append_left _ hg,hrest⟩

theorem held_sealing (hash : Hashes D S) (h : Held D scope S s)
    {redactor : Option (String → String)} {key : String} {w : Publish} {messages : List Value}
    {note : String} {dir : Dir} {written : List Segment} (hid : isId id = true)
    (hfresh : id ∉ s.written.map (·.id))
    (hp : projectHashed D redactor (digestParts D [bytesOf key]) messages note = .ok p)
    (hS : projectionInput p.logicalId p.sourceMessageCount p.messages ∈ S)
    (hseal : sealWithNote D scope redactor (digestParts D [bytesOf key]) id w messages note s.dir =
      (dir,result))
    (hwritten : dir = s.dir ∧ written = s.written ∨
      dir ≠ s.dir ∧ written = s.written ++ [segmentOf id p]) :
    Held D scope S { s with
      dir := dir
      written := written
      returned := s.returned ++ (result.toOption.map fun r => ⟨r.1,r.2,p⟩).toList } := by
  obtain ⟨hlogical,hsealable⟩ := projectHashed_sealable hp
  have hkey := hash.hex (hashInput [bytesOf key])
  change isHexDigest (digestParts D [bytesOf key]) = true at hkey
  rw [← hlogical] at hsealable hkey
  rw [sealWithNote,hp] at hseal
  dsimp only at hseal
  by_cases hknown : ∃ g ∈ s.written, p.digest = g.digest
  · -- A record of this digest is there: the directory stays.
    obtain ⟨g,hg,hdigest⟩ := hknown
    have hmatch := matches_of_digest hash (h.stored.valid g hg) (h.hashed g hg) hkey hsealable hS
      hdigest
    by_cases hdead : g.id ∈ s.buried
    · rw [seal_buried h.stored hg hdead hdigest,Prod.mk.injEq] at hseal
      obtain ⟨rfl,rfl⟩ := hseal
      obtain ⟨-,rfl⟩ := hwritten.resolve_right fun hne => hne.1 rfl
      exact held_kept h nofun
    · rw [seal_known h.stored hg hdead hdigest,Prod.mk.injEq] at hseal
      obtain ⟨rfl,rfl⟩ := hseal
      obtain ⟨-,rfl⟩ := hwritten.resolve_right fun hne => hne.1 rfl
      exact held_kept h fun r hr => ⟨g,hg,hmatch,(Except.ok.inj hr).symm⟩
  · have hnew : ∀ g ∈ s.written, g.digest ≠ p.digest := fun g hg heq => hknown ⟨g,hg,heq.symm⟩
    have hlive : id ∉ s.buried := fun hb => hfresh (h.buried id hb)
    rcases seal_new h.stored hnew hlive hlogical w with ⟨e,hkept⟩ |
      ⟨hlt,hsegment,hstore,result',hpublished,hreturned⟩
    · rw [hkept,Prod.mk.injEq] at hseal
      obtain ⟨rfl,rfl⟩ := hseal
      obtain ⟨-,rfl⟩ := hwritten.resolve_right fun hne => hne.1 rfl
      exact held_kept h nofun
    · rw [hpublished,Prod.mk.injEq] at hseal
      obtain ⟨rfl,rfl⟩ := hseal
      have hchanged := update_ne h.stored s.written.length
        (slotBytes scope s.buried (segmentOf id p)) (by simp)
      obtain ⟨-,rfl⟩ := hwritten.resolve_left fun heq => hchanged heq.1
      have hsize : (recordBytes ((segmentOf id p).record scope [])).length ≤ maxSegmentBytes := by
        have hsame : slotBytes scope s.buried (segmentOf id p) =
            recordBytes ((segmentOf id p).record scope []) := by
          simp [slotBytes,Segment.record,segmentOf,hlive]
        rwa [← hsame]
      have hvalid := valid_segmentOf hash hid hlogical hsealable hsize
      refine held_kept (held_append h hvalid hS hfresh hnew hlt hstore) fun r hr => ?_
      exact ⟨segmentOf id p,by simp,⟨rfl,rfl,rfl⟩,hreturned r hr⟩

theorem held_forgetting (h : Held D scope S s) {w : Publish} {dir : Dir}
    {result : Except ArchiveError Unit} {buried : List String}
    (hforget : forget D scope w id s.dir = (dir,result))
    (hburied : dir = s.dir ∧ buried = s.buried ∨ dir ≠ s.dir ∧ buried = id :: s.buried) :
    Held D scope S { s with
      dir := dir
      buried := buried
      forgotten := if result.toBool then id :: s.forgotten else s.forgotten } := by
  rcases forget_cases h.stored w id with ⟨e,hkept⟩ | ⟨hdead,hkept⟩ |
    ⟨slot,g,result',hg,rfl,hlive,hchanged⟩
  · rw [hkept,Prod.mk.injEq] at hforget
    obtain ⟨rfl,rfl⟩ := hforget
    obtain ⟨-,rfl⟩ := hburied.resolve_right fun hne => hne.1 rfl
    exact h
  · rw [hkept,Prod.mk.injEq] at hforget
    obtain ⟨rfl,rfl⟩ := hforget
    obtain ⟨-,rfl⟩ := hburied.resolve_right fun hne => hne.1 rfl
    refine ⟨h.stored,h.hashed,h.buried,fun i hi => ?_,h.returned⟩
    rcases mem_cons.mp hi with rfl | hi
    · exact hdead
    · exact h.forgotten i hi
  · rw [hchanged,Prod.mk.injEq] at hforget
    obtain ⟨rfl,rfl⟩ := hforget
    have hne := update_ne h.stored slot (slotBytes scope (g.id :: s.buried) g)
      (by simpa [hg] using slotBytes_bury_ne hlive)
    obtain ⟨-,rfl⟩ := hburied.resolve_left fun heq => hne heq.1
    refine ⟨stored_bury h.stored hg,h.hashed,fun i hi => ?_,fun i hi => ?_,h.returned⟩
    · rcases mem_cons.mp hi with rfl | hi
      · exact mem_map_of_mem (mem_of_getElem? hg)
      · exact h.buried i hi
    · have hor : i = g.id ∨ i ∈ s.forgotten := by
        revert hi
        dsimp only
        split
        · exact mem_cons.mp
        · exact .inr
      rcases hor with rfl | hi
      · exact mem_cons_self
      · exact mem_cons_of_mem _ (h.forgotten i hi)

theorem held_step (hash : Hashes D S) (s t : State) (h : Held D scope S s)
    (hst : Step D scope S s t) : Held D scope S t := by
  cases hst with
  | sealing redactor key id w messages note p dir result written hid hfresh hp hS hseal hwritten =>
    exact held_sealing hash h hid hfresh hp hS hseal hwritten
  | rejected redactor key id w messages note e hp =>
    rw [sealWithNote,hp]
    exact h
  | forgetting w id dir result buried hforget hburied => exact held_forgetting h hforget hburied
  | reading => exact h

end Steps

structure Safe (D : Deps) (scope : String) (s : State) : Prop where
  scans : ∃ seen, scan D scope s.dir = .ok seen ∧ (seen.1.map (·.2.id)).Nodup ∧
    (seen.1.map (·.2.digest)).Nodup
  forgotten_fetch : ∀ id ∈ s.forgotten, ∀ start limit, limit ≤ maxFetchMessages →
    fetch D scope s.dir id start limit = .error notFound
  forgotten_seal : ∀ g ∈ s.written, g.id ∈ s.forgotten → ∀ redactor id w messages note p,
    projectHashed D redactor g.logical messages note = .ok p → g.Matches p →
    sealWithNote D scope redactor g.logical id w messages note s.dir =
      (s.dir,.error projectionForgotten)
  sealed_again : ∀ g ∈ s.written, g.id ∉ s.buried → ∀ redactor id w messages note p,
    projectHashed D redactor g.logical messages note = .ok p → g.Matches p →
    sealWithNote D scope redactor g.logical id w messages note s.dir =
      (s.dir,.ok (g.reference,g.note))
  returned : ∀ e ∈ s.returned, ∃ g ∈ s.written,
    g.Matches e.projection ∧ e.reference = g.reference ∧ e.note = g.note
  pages : ∀ g ∈ s.written, g.id ∉ s.buried → ∀ sizes : List Nat,
    (∀ n ∈ sizes, 1 ≤ n ∧ n ≤ maxFetchMessages) → g.messages.length ≤ sizes.sum →
    fetchPages D scope s.dir g.id 0 sizes = .ok g.messages
  ordered : ∀ g ∈ s.written, (g.messages.map (·.sourceIndex)).Pairwise (· < ·)

/-- In every state that seals, forgets, fetches and searches reach, whatever publications
fail, the archive is safe. -/
theorem archive_safe {D : Deps} {scope : String} {S : Set (List UInt8)} (hash : Hashes D S)
    {s : State} (h : Reachable Init (Step D scope S) s) : Safe D scope s := by
  have hheld : Held D scope S s :=
    h.invariant (Held D scope S) (fun _ => held_init) (held_step hash)
  have hstored := hheld.stored
  refine ⟨⟨_,scan_stored hstored,?_,?_⟩,?_,?_,?_,hheld.returned,?_,?_⟩
  · rw [map_listing record_id]
    exact hstored.ids
  · rw [map_listing record_digest]
    exact hstored.digests
  · intro id hid start limit hlimit
    have hdead := hheld.forgotten id hid
    obtain ⟨g,hg,rfl⟩ := mem_map.mp (hheld.buried id hdead)
    rw [fetch,fetchWithProvenance_stored hstored hg start hlimit,if_pos hdead]
    rfl
  · intro g hg hid redactor id w messages note p hp hmatch
    have hdigest := digest_of_matches (hstored.valid g hg) hp hmatch
    rw [sealWithNote,hp]
    exact seal_buried hstored hg (hheld.forgotten _ hid) hdigest g.logical id w
  · intro g hg hlive redactor id w messages note p hp hmatch
    have hdigest := digest_of_matches (hstored.valid g hg) hp hmatch
    rw [sealWithNote,hp]
    exact seal_known hstored hg hlive hdigest g.logical id w
  · intro g hg hlive sizes hsizes hlength
    rw [fetchPages_stored hstored hg hlive (fun n hn => (hsizes n hn).2),drop_zero,
      take_of_length_le hlength]
  · exact fun g hg => (hstored.valid g hg).sealable.placed.ordered

def said (text : String) : Value :=
  .object [("content",.array [.object [("text",.string text),("type",.string "text")]]),
    ("role",.string "user")]

/-- The digest of the key `k`, which names the scope and the session. -/
def demoKey : String := "42d9f8b63022a2b1a4f0869d68680ebb7ac39693aec2a83099c51f96289cccfe"

def hi : ArchiveProjection := ⟨demoKey,1,[⟨0,[0],said "hi"⟩],"",
  "e58faaf2ce177eb816edecf441fffce400f46fb3ad038b7d43b15a2e3cd568b0"⟩

def bye : ArchiveProjection := ⟨demoKey,1,[⟨0,[0],said "bye"⟩],"",
  "7e7bc8e7ef821a50bbe215b7d27ad3c3c7924726a6c2c27a00bee2746899077e"⟩

def inputOf (p : ArchiveProjection) : List UInt8 :=
  projectionInput p.logicalId p.sourceMessageCount p.messages

/-- SHA-256 on what the run hashes; elsewhere its value at the empty input. -/
def demoDeps : Deps where
  sha256 bytes :=
    if bytes = hashInput [bytesOf "k"] then demoKey
    else if bytes = inputOf hi then hi.digest
    else if bytes = inputOf bye then bye.digest
    else "e3b0c44298fc1c149afbf4c8996fb92427ae41e4649b934ca495991b7852b855"
  readJson _ := none

theorem hashes_demo : Hashes demoDeps {inputOf hi,inputOf bye} where
  hex bytes := by
    unfold demoDeps
    dsimp only
    split_ifs
    all_goals decide +kernel
  injective := Set.injOn_pair.mpr fun h => absurd h (by decide +kernel)

def hiSegment : Segment := segmentOf "00000000000000000000000000000001" hi

def byeSegment : Segment := segmentOf "00000000000000000000000000000002" bye

theorem demo_project : digestParts demoDeps [bytesOf "k"] = demoKey ∧
    projectHashed demoDeps none demoKey [said "hi"] "" = .ok hi ∧
    projectHashed demoDeps none demoKey [said "bye"] "" = .ok bye := by
  decide +kernel

theorem demo_newRecord : newRecord demoKey demoKey hiSegment.id hi ([],0) =
      .ok (0,hiSegment.record demoKey []) ∧
    newRecord demoKey demoKey byeSegment.id bye
      (listing demoKey [] [hiSegment],totalBytes demoKey [] [hiSegment]) =
        .ok (1,byeSegment.record demoKey []) := by
  decide +kernel

theorem sealWithNote_new {D : Deps} {scope logical id note : String} {dir : Dir}
    {written : List Segment} {buried : List String} {redactor : Option (String → String)}
    {messages : List Value} {p : ArchiveProjection} {slot : Nat} {r : Record}
    (h : Stored D scope dir written buried)
    (hp : projectHashed D redactor logical messages note = .ok p)
    (hnew : ∀ g ∈ written, g.digest ≠ p.digest)
    (hrecord : newRecord scope logical id p
      (listing scope buried written,totalBytes scope buried written) = .ok (slot,r)) :
    sealWithNote D scope redactor logical id .ok messages note dir =
      (Function.update dir slot (some (recordBytes r)),r.reference.map (·,p.note)) ∧
    ∀ e, sealWithNote D scope redactor logical id (.errAfter e) messages note dir =
      (Function.update dir slot (some (recordBytes r)),.error e) := by
  simp only [sealWithNote,hp,sealProjection,scan_stored h,find_listing_none record_digest hnew,
    hrecord,publish,implies_true,and_self]

abbrev DemoStep : State → State → Prop := Step demoDeps demoKey {inputOf hi,inputOf bye}

/-- One projection is sealed, the seal of another fails behind its rename, and the first
one is forgotten. -/
theorem archive_safe_demo : ∃ s, Reachable Init DemoStep s ∧ s.written = [hiSegment,byeSegment] ∧
    s.returned.length = 1 ∧ s.forgotten = [hiSegment.id] ∧ Safe demoDeps demoKey s := by
  obtain ⟨hkey,hhi,hbye⟩ := demo_project
  obtain ⟨hfirst,hsecond⟩ := demo_newRecord
  have hstored {s} (hr : Reachable Init DemoStep s) :=
    (hr.invariant _ (fun _ => held_init) (held_step hashes_demo)).stored
  have h0 : Reachable Init DemoStep _ := .init .empty
  have h1 := h0.step (.sealing _ none "k" hiSegment.id .ok [said "hi"] "" hi _ _ [hiSegment]
    (by decide +kernel) (by simp) (by rw [hkey,hhi]) (by simp [inputOf])
    (by rw [hkey]; exact (sealWithNote_new (hstored h0) hhi (by simp) hfirst).1)
    (.inr ⟨update_ne (hstored h0) 0 _ (by simp),rfl⟩))
  have h2 := h1.step (.sealing _ none "k" byeSegment.id (.errAfter (invalid "disk full"))
    [said "bye"] "" bye _ _ [hiSegment,byeSegment] (by decide +kernel) (by decide)
    (by rw [hkey,hbye]) (by simp [inputOf])
    (by rw [hkey]; exact (sealWithNote_new (hstored h1) hbye (by decide) hsecond).2 _)
    (.inr ⟨update_ne (hstored h1) 1 _ (by simp),rfl⟩))
  have hlive : hiSegment.id ∉ ([] : List String) := not_mem_nil
  have h3 := h2.step (.forgetting _ .ok hiSegment.id _ _ _
    (forget_live (hstored h2) (show [hiSegment,byeSegment][0]? = some hiSegment from rfl) hlive .ok)
    (.inr ⟨update_ne (hstored h2) 0 _ (by simpa using slotBytes_bury_ne hlive),rfl⟩))
  exact ⟨_,h3,rfl,rfl,rfl,archive_safe hashes_demo h3⟩

end Synaps.Archive
