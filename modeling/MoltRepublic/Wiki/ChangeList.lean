import Mathlib
import MoltRepublic.Wiki.Holder

/-! What a holder lists as complete is complete over all its pages, where no rename of the
window lands on a path the window deleted last. -/

namespace Molt.Wiki
open Molt.Core Json Check Chain List SortedMap Option

variable {C : Crypto}

section

variable {h : Holder} {L : Lineage}

theorem Kept.told {cards : SortedMap Nat Card} (hk : Kept cards L) (cut : Nat) :
    ∀ e ∈ cards.entries.filterMap (cardChanges cut), ∃ r ∈ L.revisions, e = r.changes := by
  intro e he
  obtain ⟨⟨id, p⟩, hp, hcard⟩ := mem_filterMap.mp he
  have hget := get?_eq_some.mpr hp
  unfold cardChanges at hcard
  split_ifs at hcard with hmem
  split at hcard
  · rename_i rev patch hrev hpatch
    obtain ⟨hstamp, -⟩ := filter_eq_some_iff.mp hrev
    obtain ⟨r, hr, hrrev, pid, hpid, hid⟩ := hk.stamps id p rev hget hmem.1 hstamp
    have hfiles := hk.patches r hr pid hpid p (by rw [hid]; exact hget) patch hpatch
    refine ⟨r, hr, ?_⟩
    rw [← Option.some.inj hcard]
    unfold Revision.changes
    rw [hfiles, hrrev, hpid, ← hid, UInt64.ofNat_toNat]
  · simp at hcard

variable {c : WikiCache}

theorem Follows.withBelow (hf : Follows C h L) (hc : h.wikiCache = some c) (sinceRev : Nat) :
    Stands C h.memory (withBelow h.cards c sinceRev) ∧ Memo L (withBelow h.cards c sinceRev) := by
  obtain ⟨hstands, hmemo⟩ := hf.cache c hc
  unfold Wiki.withBelow
  cases hneeds : needsCards c.toFolded sinceRev with
  | none => exact ⟨hstands, hmemo⟩
  | some cut =>
    split_ifs with hnone
    · refine ⟨⟨hstands.fold, hstands.epoch, hstands.legacy, hstands.chain⟩, ?_⟩
      intro below floor cut' hbelow hcut'
      have hcut : c.revAtCut = some cut := by
        unfold needsCards at hneeds
        split at hneeds
        · rename_i hat
          split_ifs at hneeds
          rw [hat, Option.some.inj hneeds]
        · simp at hneeds
      obtain rfl : cut = cut' := Option.some.inj (hcut.symm.trans hcut')
      obtain ⟨root, hrooted⟩ := hf.rooted
      obtain ⟨f, hfold, hreads, hbase⟩ := hrooted.fold hf.room
      cases hstands.fold.symm.trans hfold
      have hroot : cut = root.rev := by
        rcases hbase with ⟨hnob, hzero⟩ | ⟨-, hsome | ⟨hnocut, -⟩⟩
        · unfold needsCards at hneeds
          rw [hnob] at hneeds
          simp at hneeds
        · exact Option.some.inj (hcut.symm.trans hsome)
        · simpa using hcut.symm.trans hnocut
      have hpair : wikiHistoryBelowTheCut h.cards cut = (below, floor) := Option.some.inj hbelow
      have hbelow' := belowCut_of_stamps (hroot ▸ hreads.low) (hroot ▸ hreads.high) (hf.kept.told cut)
      rw [hpair] at hbelow'
      exact hbelow'
    · exact ⟨hstands, hmemo⟩

theorem withBelow_made (cards : SortedMap Nat Card) (c : WikiCache) (sinceRev : Nat) :
    needsCards (withBelow cards c sinceRev).toFolded sinceRev ≠ none →
      (withBelow cards c sinceRev).belowCut ≠ none := by
  unfold withBelow
  cases hneeds : needsCards c.toFolded sinceRev with
  | none => exact absurd hneeds
  | some cut =>
    intro _
    split_ifs with hnone
    · simp
    · simpa using hnone

variable {sinceRev : Nat}

theorem window_of_untruncated {root : Lineage} (hrooted : Rooted C h.memory root L) (hroom : L.rev < 2 ^ 64)
    (hstands : Stands C h.memory c) (hmemo : Memo L c)
    (hmade : needsCards c.toFolded sinceRev ≠ none → c.belowCut ≠ none)
    (hfloor : (belowOf c sinceRev).2 ≤ sinceRev) :
    L.start ≤ sinceRev ∧
      ((belowOf c sinceRev).1 ++ c.history).filter (fun e => sinceRev < e.rev) =
        (L.revisions.drop (sinceRev - L.start)).map Revision.changes := by
  obtain ⟨f, hfold, hreads, hbase⟩ := hrooted.fold hroom
  cases hstands.fold.symm.trans hfold
  have hlow := hreads.low
  rcases hbase with ⟨hnone, hzero⟩ | ⟨⟨hash, hsome⟩, hcut | ⟨hnocut, hzero⟩⟩
  · rw [hzero] at hlow
    have hbelow : (belowOf c sinceRev).1 = [] := by
      unfold belowOf
      rw [hnone]
    have hle : L.start ≤ sinceRev := le_trans hlow (Nat.zero_le _)
    rw [hbelow, nil_append, hreads.above, hzero]
    exact ⟨hle, L.filter_above hlow (Nat.zero_le _)⟩
  · by_cases hlt : sinceRev < root.rev
    · have hneeds : needsCards c.toFolded sinceRev = some root.rev := by
        unfold needsCards
        rw [hsome, hcut]
        exact if_pos hlt
      obtain ⟨⟨below, floor⟩, hbelow⟩ := ne_none_iff_exists'.mp (hmade (by rw [hneeds]; simp))
      have hof : belowOf c sinceRev = (below, floor) := by
        unfold belowOf
        rw [hsome, hcut, hneeds, hbelow]
        rfl
      have hrun := hmemo below floor root.rev hbelow hcut
      rw [hof] at hfloor ⊢
      have hwhole : below ++ c.history = (L.revisions.drop (floor - L.start)).map Revision.changes := by
        have hdrop : L.revisions.drop (root.rev - L.start) =
            (L.revisions.drop (floor - L.start)).drop (root.rev - floor) := by
          have hlow' := hrun.low
          rw [drop_drop]
          congr 1
          omega
        rw [hrun.run, hreads.above, ← map_append, hdrop, take_append_drop]
      rw [hwhole]
      exact ⟨le_trans hrun.low hfloor, L.filter_above hrun.low hfloor⟩
    · have hneeds : needsCards c.toFolded sinceRev = none := by
        unfold needsCards
        rw [hsome, hcut]
        exact if_neg hlt
      have hbelow : (belowOf c sinceRev).1 = [] := by
        unfold belowOf
        rw [hsome, hcut, hneeds]
        rfl
      rw [hbelow, nil_append, hreads.above]
      exact ⟨le_trans hlow (not_lt.mp hlt), L.filter_above hlow (not_lt.mp hlt)⟩
  · rw [hzero] at hlow
    have hbelow : (belowOf c sinceRev).1 = [] := by
      unfold belowOf
      rw [hsome, hnocut]
    have hle : L.start ≤ sinceRev := le_trans hlow (Nat.zero_le _)
    rw [hbelow, nil_append, hreads.above, hzero]
    exact ⟨hle, L.filter_above hlow (Nat.zero_le _)⟩

theorem Complete.perm {before now : Tree} {l l' : List Change} (hl : Complete before now l) (hperm : l'.Perm l) :
    Complete before now l' := by
  refine ⟨?_, ?_, fun c hc => hl.gone c (hperm.mem_iff.mp hc), (hperm.map _).nodup_iff.mpr hl.once⟩
  · intro p x hp hx
    obtain ⟨c, hc, hnames⟩ := hl.lost p x hp hx
    exact ⟨c, hperm.mem_iff.mpr hc, hnames⟩
  · intro p x hp hx
    obtain ⟨c, hc, hnames⟩ := hl.gained p x hp hx
    exact ⟨c, hperm.mem_iff.mpr hc, hnames⟩

theorem length_coalesceItem (rev : Nat) (seen : Seen) (item : Touch) :
    (coalesceItem rev seen item).entries.length ≤ seen.entries.length + 1 := by
  have htake : (takeOld seen item).2.2.entries.length ≤ seen.entries.length := by
    unfold takeOld
    split
    · exact le_refl _
    · split
      · exact length_filter_le ..
      · exact le_refl _
  unfold coalesceItem
  dsimp only
  split
  all_goals exact le_trans (length_insert_le ..) (Nat.add_le_add_right htake 1)

theorem length_coalesceRev (seen : Seen) (revisions : List Revision) :
    ((revisions.map Revision.changes).foldl coalesceRev seen).entries.length ≤
      seen.entries.length + (revisions.flatMap Revision.files).length := by
  induction revisions generalizing seen with
  | nil => simp
  | cons r revisions ih =>
    have hitems : ∀ (items : List Touch) (seen : Seen),
        (items.foldl (coalesceItem r.rev) seen).entries.length ≤ seen.entries.length + items.length := by
      intro items
      induction items with
      | nil => exact fun seen => le_refl _
      | cons item items ihs =>
        intro seen
        have hone := length_coalesceItem r.rev seen item
        have hrest := ihs (coalesceItem r.rev seen item)
        rw [foldl_cons, length_cons]
        omega
    have hhead := hitems (r.files.map wikiTouchOf) seen
    have hrest := ih (coalesceRev seen r.changes)
    rw [length_map] at hhead
    rw [map_cons, foldl_cons, flatMap_cons, length_append]
    change (coalesceRev seen r.changes).entries.length ≤ _ at hhead
    omega

/-- A holder whose cache answers for `sinceRev` with nothing left to derive. -/
structure Settled (C : Crypto) (h : Holder) (c : WikiCache) (sinceRev : Nat) : Prop where
  on : h.memoryOn = true
  cache : h.wikiCache = some c
  stands : Stands C h.memory c
  held : wikiCacheBaseHeld h.memory c = true
  made : needsCards c.toFolded sinceRev ≠ none → c.belowCut ≠ none

theorem Settled.refresh (hs : Settled C h c sinceRev) :
    Settled C (h.refresh C) c sinceRev := by
  have hext : h.memory.extends c = true := by
    unfold Memory.extends
    simp [hs.held, hs.stands.epoch, hs.stands.legacy, hs.stands.chain]
  have htail : h.memory.tail c = [] := by
    unfold Memory.tail
    rw [hs.stands.legacy, hs.stands.chain, drop_length, drop_length]
    rfl
  have hcache : (refreshWikiCache C h.memory h.wikiCache).1 = some c := by
    have hfilter : h.wikiCache.filter h.memory.extends = some c :=
      filter_eq_some_iff.mpr ⟨hs.cache, hext⟩
    have hsame : h.memory.cacheOf c.toFolded c.belowCut = c := by
      unfold Memory.cacheOf
      rw [← hs.stands.legacy, ← hs.stands.chain, ← hs.stands.epoch]
    unfold refreshWikiCache
    rw [hfilter]
    dsimp only
    rw [htail]
    exact congrArg some hsame
  exact ⟨hs.on, hcache, hs.stands, hs.held, hs.made⟩

theorem Settled.cmd (hs : Settled C h c sinceRev) (limit cursor : Nat) :
    ∃ h', cmdWikiChanges C h sinceRev limit cursor = (h', .ok (changesReply c sinceRev limit cursor)) ∧
      Settled C h' c sinceRev := by
  have hr := hs.refresh
  have hwith : withBelow (h.refresh C).cards c sinceRev = c := by
    unfold withBelow
    cases hneeds : needsCards c.toFolded sinceRev with
    | none => rfl
    | some cut =>
      have hmade := hs.made (by rw [hneeds]; simp)
      dsimp only
      rw [if_neg (by simpa using hmade)]
  refine ⟨{ h.refresh C with wikiCache := some c }, ?_, ⟨hr.on, rfl, hr.stands, hr.held, hr.made⟩⟩
  unfold cmdWikiChanges
  rw [if_neg (by rw [hs.on]; simp)]
  dsimp only
  rw [hr.cache]
  dsimp only
  rw [hwith]

theorem readPages_step {h' : Holder} {limit n cursor : Nat}
    (hcmd : cmdWikiChanges C h sinceRev limit cursor = (h', .ok (changesReply c sinceRev limit cursor)))
    (hlen : (changesOf c sinceRev).length < 2 ^ 32)
    (hrest : ∀ next, cursor < next → next < (changesOf c sinceRev).length → readPages C sinceRev limit n h' next = (changesOf c sinceRev).drop next) :
    readPages C sinceRev limit (n + 1) h cursor = (changesOf c sinceRev).drop cursor := by
  have hpage : 0 < pageOf limit := by
    unfold pageOf wikiPageDefault wikiPageMax
    split_ifs
    · decide
    · omega
  rw [readPages, hcmd]
  dsimp only [changesReply]
  by_cases hmore : cursor + min (pageOf limit) ((changesOf c sinceRev).length - cursor) <
      (changesOf c sinceRev).length
  · have hcursor : min (cursor + min (pageOf limit) ((changesOf c sinceRev).length - cursor)) (2 ^ 32 - 1) =
        cursor + min (pageOf limit) ((changesOf c sinceRev).length - cursor) := by omega
    rw [if_pos hmore]
    dsimp only
    rw [hcursor, hrest _ (by omega) hmore, ← drop_drop, take_append_drop]
  · rw [if_neg hmore]
    dsimp only
    apply take_of_length_le
    rw [length_drop]
    omega

theorem Settled.pages (hs : Settled C h c sinceRev) (limit : Nat)
    (hlen : (changesOf c sinceRev).length < 2 ^ 32) {n cursor : Nat}
    (hn : (changesOf c sinceRev).length - cursor < n) :
    readPages C sinceRev limit n h cursor = (changesOf c sinceRev).drop cursor := by
  induction n generalizing h cursor with
  | zero => exact absurd hn (Nat.not_lt_zero _)
  | succ n ih =>
    obtain ⟨h', hcmd, hs'⟩ := hs.cmd limit cursor
    exact readPages_step hcmd hlen fun next hnext hlt => ih hs' (by omega)

theorem Follows.cmd (hf : Follows C h L) (hon : h.memoryOn = true) (sinceRev limit cursor : Nat) :
    ∃ h' c, cmdWikiChanges C h sinceRev limit cursor = (h', .ok (changesReply c sinceRev limit cursor)) ∧
      Follows C h' L ∧ Settled C h' c sinceRev ∧ Memo L c ∧ h'.memory = h.memory := by
  obtain ⟨hr, c, hc⟩ := hf.refreshable.refresh
  obtain ⟨hstands, hmemo⟩ := hr.withBelow hc sinceRev
  obtain ⟨root, hrooted⟩ := hr.rooted
  refine ⟨{ h.refresh C with wikiCache := some (Wiki.withBelow (h.refresh C).cards c sinceRev) },
    Wiki.withBelow (h.refresh C).cards c sinceRev, ?_, ?_, ?_, hmemo, rfl⟩
  · unfold cmdWikiChanges
    rw [if_neg (by rw [hon]; simp)]
    dsimp only
    rw [hc]
  · refine ⟨hr.rooted, hr.room, hr.epoch, ?_, hr.kept⟩
    intro d hd
    cases hd
    exact ⟨hstands, hmemo⟩
  · exact ⟨hon, rfl, hstands, hstands.held hrooted, withBelow_made _ c sinceRev⟩

end

/-- The runs of a holder, with the lineage it follows. The chain refuses an op a cut
writes and an id it consumed; an id that two members gave to two patches and a counter
at its end are left out. -/
inductive Run (C : Crypto) : Holder → Lineage → Prop
  | opened (legacy : List Entry) (epoch : Nat) (cards : SortedMap Nat Card) (on : Bool)
      (hplain : ∀ e ∈ legacy, isBaseEntry e = false) (hepoch : epoch < 2 ^ 64)
      (hroom : (legacy.foldl Lineage.push Lineage.founding).rev < 2 ^ 64)
      (hstamps : ∀ id p, cards.get? id = some p → p.wikiRev = none)
      (hcards : ∀ id p, cards.get? (UInt64.toNat id) = some p →
        NoOther (legacy.foldl Lineage.push Lineage.founding) id p.payload) :
      Run C ⟨⟨legacy, [], none, epoch⟩, cards, none, on⟩ (legacy.foldl Lineage.push Lineage.founding)
  | block {h : Holder} {L : Lineage} (id : UInt64) (payload : Value) (hrun : Run C h L)
      (hop : isBaseEntry (some id, payload) = false) (hnew : ∀ r ∈ L.revisions, r.proposal ≠ some id)
      (hcard : ∀ p, h.cards.get? id.toNat = some p → p.payload.getStr "value" = payload.getStr "value")
      (hroom : L.rev + 1 < 2 ^ 64) : Run C (h.block C id payload) (L.push (some id, payload))
  | cut {h : Holder} {L : Lineage} (n : Nat) (hrun : Run C h L) (hlegacy : h.memory.legacy = []) (hn : 0 < n) :
      Run C (h.cut C n) L
  | adopt {h : Holder} {L : Lineage} (b : Branch) (hrun : Run C h L) (hlegacy : h.memory.legacy = [])
      (hplain : ∀ e ∈ b.entries, isBaseEntry e = false)
      (hroom : (b.entries.foldl Lineage.push b.root).rev < 2 ^ 64)
      (hcards : ∀ id p, h.cards.get? (UInt64.toNat id) = some p →
        NoOther (b.entries.foldl Lineage.push b.root) id p.payload) :
      Run C (h.adopt C b) (b.entries.foldl Lineage.push b.root)
  | register {h : Holder} {L : Lineage} (id : UInt64) (surface : Surface) (payload : Value) (by_ : String)
      (hrun : Run C h L) (hnew : NoOther L id payload) : Run C (h.register id surface payload by_) L
  | settle {h : Holder} {L : Lineage} (id : UInt64) (applied : Bool) (hrun : Run C h L) :
      Run C (h.settle id applied) L
  | lose {h : Holder} {L : Lineage} (id : UInt64) (hrun : Run C h L) : Run C (h.lose id) L
  | read {h : Holder} {L : Lineage} (sinceRev limit cursor : Nat) (hrun : Run C h L) :
      Run C (cmdWikiChanges C h sinceRev limit cursor).1 L

theorem Run.follows {h : Holder} {L : Lineage} (hrun : Run C h L) : Follows C h L := by
  induction hrun with
  | opened legacy epoch cards on hplain hepoch hroom hstamps hcards =>
    have hentries : (⟨legacy, [], none, epoch⟩ : Memory).appliedEntries = legacy := append_nil _
    have hrooted : Rooted C ⟨legacy, [], none, epoch⟩ Lineage.founding _ :=
      .founding (by rw [hentries]; exact hplain) rfl
    rw [hentries] at hrooted
    refine ⟨⟨_, hrooted⟩, hroom, hepoch, by simp, ?_, ?_⟩
    · intro r hr id hid p hp patch hpatch
      exact hcards id p hp r hr hid patch hpatch
    · intro id p rev hp _ hrev
      exact absurd ((hstamps id p hp).symm.trans hrev) (by simp)
  | block id payload _ hop hnew hcard hroom ih =>
    exact ih.block hop (fun r hr hid => absurd hid (hnew r hr)) hcard hroom
  | cut n _ hlegacy hn ih => exact ih.cut hlegacy hn
  | adopt b _ _ hplain hroom hcards ih => exact ih.adopt b hplain hroom hcards
  | register id surface payload by_ _ hnew ih => exact ih.register hnew
  | settle id applied _ ih => exact ih.settle id applied
  | lose id _ ih => exact ih.lose id
  | read sinceRev limit cursor _ ih =>
    rename_i h L _
    cases hon : h.memoryOn with
    | false =>
      have hsame : (cmdWikiChanges C h sinceRev limit cursor).1 = h := by
        unfold cmdWikiChanges
        rw [if_pos hon]
      rw [hsame]
      exact ih
    | true =>
      obtain ⟨h', c, hcmd, hf, -⟩ := ih.cmd hon sinceRev limit cursor
      rw [hcmd]
      exact hf

/-- In every run, whatever cut was folded and whichever cards were kept: a change list that
does not say it is truncated is complete over its pages, where the patches of its window
move no document onto a path the window deleted last. -/
theorem untruncated_changes_complete {h : Holder} {L : Lineage} (hrun : Run C h L) {sinceRev limit fuel : Nat}
    {reply : ChangesReply} (hreply : (cmdWikiChanges C h sinceRev limit 0).2 = .ok reply)
    (htruncated : reply.truncated = false) (hfuel : reply.total < fuel)
    (hclear : Clear [] ((L.revisions.drop (sinceRev - L.start)).flatMap Revision.files))
    (hsize : ((L.revisions.drop (sinceRev - L.start)).flatMap Revision.files).length < 2 ^ 32) :
    L.start ≤ sinceRev ∧ sinceRev ≤ L.rev ∧
      ∃ before f, L.treeAt sinceRev = .ok before ∧ h.memory.fold C = .ok f ∧
        Complete before f.tree (readPages C sinceRev limit fuel h 0) := by
  have hf := hrun.follows
  have hon : h.memoryOn = true := by
    by_contra hoff
    unfold cmdWikiChanges at hreply
    rw [if_pos (by simpa using hoff)] at hreply
    exact absurd hreply (by simp)
  obtain ⟨h', c, hcmd, hf', hs, hmemo, hmem⟩ := hf.cmd hon sinceRev limit 0
  rw [hcmd] at hreply
  obtain rfl := Except.ok.inj hreply
  have hbounds : ¬ (sinceRev < (belowOf c sinceRev).2 ∨ c.rev < sinceRev) := by
    simpa [changesReply] using htruncated
  push Not at hbounds
  obtain ⟨root, hrooted⟩ := hf'.rooted
  obtain ⟨f, hfold, hreads, -⟩ := hrooted.fold hf'.room
  have hrev : c.rev = L.rev := by
    rw [Except.ok.inj (hs.stands.fold.symm.trans hfold)]
    exact hreads.rev
  obtain ⟨hstart, hwindow⟩ := window_of_untruncated hrooted hf'.room hs.stands hmemo hs.made hbounds.1
  obtain ⟨before, hbefore, hreplay⟩ := L.replay_above sinceRev
  have hlist : coalesceWikiChanges ((belowOf c sinceRev).1 ++ c.history) sinceRev =
      (((L.revisions.drop (sinceRev - L.start)).map Revision.changes).foldl coalesceRev
        SortedMap.empty).values.filterMap report := by
    unfold coalesceWikiChanges
    dsimp only
    rw [← hwindow]
  have hcomplete : Complete before L.now (changesOf c sinceRev) := by
    refine Complete.perm ?_ (List.perm_insertionSort ..)
    rw [hlist]
    exact complete_of_replay hreplay hclear
  have hlen : (changesOf c sinceRev).length < 2 ^ 32 := by
    unfold changesOf
    rw [List.length_insertionSort, hlist]
    have hcount := length_coalesceRev SortedMap.empty (L.revisions.drop (sinceRev - L.start))
    refine lt_of_le_of_lt (le_trans (List.length_filterMap_le ..) ?_) hsize
    unfold SortedMap.values
    rw [List.length_map]
    simpa [SortedMap.empty] using hcount
  have hpages : readPages C sinceRev limit fuel h 0 = changesOf c sinceRev := by
    have htotal : (changesOf c sinceRev).length < fuel := hfuel
    obtain ⟨n, rfl⟩ : ∃ n, fuel = n + 1 := ⟨fuel - 1, by omega⟩
    rw [readPages_step hcmd hlen fun next hnext hlt => hs.pages limit hlen (by omega), List.drop_zero]
  rw [hmem] at hfold
  refine ⟨hstart, by rw [← hrev]; exact hbounds.2, before, f, hbefore, hfold, ?_⟩
  rw [hpages, hreads.tree]
  exact hcomplete

section

def patchPayload (patch : String) : Value := .obj [("op", .str "wiki_patch"), ("value", .str patch)]

def addPatch (path : String) : Value :=
  patchPayload ("diff --git a/" ++ path ++ " b/" ++ path ++
    "\nnew file mode 100644\n@@ -0,0 +1 @@\n+" ++ path ++ "\n")

def deletePatch (path : String) : Value :=
  patchPayload ("diff --git a/" ++ path ++ " b/" ++ path ++
    "\ndeleted file mode 100644\n@@ -1 +0,0 @@\n-" ++ path ++ "\n")

def renamePatch (old new : String) : Value :=
  patchPayload ("diff --git a/" ++ old ++ " b/" ++ new ++ "\nrename from " ++ old ++ "\nrename to " ++ new ++ "\n")

def foundedHolder : Holder := ⟨⟨[], [], none, 0⟩, SortedMap.empty, none, true⟩

theorem foundedHolder_run : Run .toy foundedHolder Lineage.founding :=
  .opened [] 0 SortedMap.empty true (by simp) (by decide) (by decide) (by simp [get?_empty])
    (by simp [get?_empty])

/-- A holder that has heard of the ids `used` and of no other. -/
structure Heard (h : Holder) (L : Lineage) (used : List UInt64) : Prop where
  revisions : ∀ r ∈ L.revisions, ∀ id, r.proposal = some id → id ∈ used
  cards : ∀ i p, h.cards.get? i = some p → ∃ id ∈ used, id.toNat = i
  rev : L.rev ≤ used.length

variable {h : Holder}

theorem Heard.block {L : Lineage} {used : List UInt64} (hu : Heard h L used) (id : UInt64) (payload : Value) :
    Heard (h.block C id payload) (L.push (some id, payload)) (id :: used) := by
  refine ⟨?_, ?_, ?_⟩
  · intro r hr pid hpid
    rcases L.push_cases (some id, payload) with ⟨heq, -⟩ | ⟨files, tree, happ, -, heq⟩
    · rw [heq] at hr
      exact .tail _ (hu.revisions r hr pid hpid)
    · rw [heq] at hr
      rcases mem_append.mp hr with hr | hr
      · exact .tail _ (hu.revisions r hr pid hpid)
      · rw [mem_singleton.mp hr] at hpid
        rw [Option.some.inj hpid]
        exact .head _
  · intro i p hp
    obtain ⟨q, hq, -⟩ := get?_stamps hp
    change (h.cards.insert id.toNat _).get? i = some q at hq
    rw [get?_insert] at hq
    split_ifs at hq with hi
    · exact ⟨id, .head _, hi.symm⟩
    · obtain ⟨pid, hpid, hid⟩ := hu.cards i q hq
      exact ⟨pid, .tail _ hpid, hid⟩
  · have hrev := hu.rev
    rcases L.push_cases (some id, payload) with ⟨heq, -⟩ | ⟨files, tree, happ, -, heq⟩
    · rw [heq, length_cons]
      omega
    · rw [heq, length_cons]
      simp only [Lineage.rev, Lineage.apply, length_append, length_singleton] at hrev ⊢
      omega

theorem Run.blocks {L : Lineage} {used : List UInt64} (hrun : Run C h L) (hu : Heard h L used)
    (l : List (UInt64 × Value)) (hop : ∀ e ∈ l, isBaseEntry (some e.1, e.2) = false)
    (hids : (l.map Prod.fst ++ used).Nodup) (hlen : l.length + used.length < 2 ^ 64) :
    Run C (l.foldl (fun h e => h.block C e.1 e.2) h) (l.foldl (fun L e => L.push (some e.1, e.2)) L) := by
  induction l generalizing h L used with
  | nil => exact hrun
  | cons e l ih =>
    rw [map_cons, cons_append, nodup_cons] at hids
    have hfresh : e.1 ∉ used := fun hmem => hids.1 (mem_append_right _ hmem)
    rw [length_cons] at hlen
    have hrev := hu.rev
    have hblock : Run C (h.block C e.1 e.2) (L.push (some e.1, e.2)) := by
      refine hrun.block e.1 e.2 (hop e (.head _)) ?_ ?_ (by omega)
      · intro r hr hid
        exact hfresh (hu.revisions r hr e.1 hid)
      · intro p hp
        obtain ⟨id, hid, heq⟩ := hu.cards _ p hp
        rw [UInt64.toNat_inj.mp heq] at hid
        exact absurd hid hfresh
    have hperm : (l.map Prod.fst ++ e.1 :: used).Nodup := by
      rw [perm_middle.nodup_iff]
      exact nodup_cons.mpr hids
    exact ih hblock (hu.block e.1 e.2) (fun a ha => hop a (.tail _ ha)) hperm
      (by rw [length_cons]; omega)

theorem foldl_block_legacy (l : List (UInt64 × Value)) (h : Holder) :
    (l.foldl (fun h e => h.block C e.1 e.2) h).memory.legacy = h.memory.legacy := by
  induction l generalizing h with
  | nil => rfl
  | cons e l ih =>
    rw [foldl_cons, ih]
    rfl

theorem foundedHolder_heard : Heard foundedHolder Lineage.founding [] := by
  refine ⟨?_, ?_, le_refl _⟩
  · intro r hr
    exact absurd hr (by simp [Lineage.founding, Lineage.startingAt])
  · intro i p hp
    exact absurd hp (by simp [foundedHolder, get?_empty])

def afterBlocks (l : List (UInt64 × Value)) : Holder := l.foldl (fun h e => h.block .toy e.1 e.2) foundedHolder

def lineageOf (l : List (UInt64 × Value)) : Lineage :=
  l.foldl (fun L e => L.push (some e.1, e.2)) Lineage.founding

/-- `A` is added and renamed to `B`. -/
def movedBlocks : List (UInt64 × Value) := [(1, addPatch "A"), (2, renamePatch "A" "B")]

/-- `C` comes and goes, and `A` is renamed to `C`. -/
def lostBlocks : List (UInt64 × Value) :=
  [(1, addPatch "A"), (2, addPatch "C"), (3, deletePatch "C"), (4, renamePatch "A" "C")]

theorem movedBlocks_run : Run .toy ((afterBlocks movedBlocks).cut .toy 2) (lineageOf movedBlocks) := by
  have hblocks := foundedHolder_run.blocks foundedHolder_heard movedBlocks (by decide) (by decide) (by decide)
  exact hblocks.cut 2 (foldl_block_legacy _ _) (by decide)

theorem lostBlocks_run : Run .toy (afterBlocks lostBlocks) (lineageOf lostBlocks) :=
  foundedHolder_run.blocks foundedHolder_heard lostBlocks (by decide) (by decide) (by decide)

def listed (h : Holder) : Option (Bool × Nat × List Change) :=
  (cmdWikiChanges .toy h 1 0 0).2.toOption.map fun r => (r.truncated, r.total, r.changes)

theorem listed_eq {truncated : Bool} {total : Nat} {changes : List Change}
    (hl : listed h = some (truncated, total, changes)) :
    ∃ r, (cmdWikiChanges .toy h 1 0 0).2 = .ok r ∧ r.truncated = truncated ∧ r.total = total ∧
      r.changes = changes := by
  unfold listed at hl
  cases hcmd : (cmdWikiChanges .toy h 1 0 0).2 with
  | error e =>
    rw [hcmd] at hl
    exact absurd hl (by simp [Except.toOption])
  | ok r =>
    rw [hcmd] at hl
    obtain ⟨htruncated, hrest⟩ := Prod.mk.inj (Option.some.inj hl)
    obtain ⟨htotal, hchanges⟩ := Prod.mk.inj hrest
    exact ⟨r, rfl, htruncated, htotal, hchanges⟩

/-- Below the cut the cards answer for the rename. -/
theorem untruncated_changes_complete_below_cut :
    ∃ before f, (lineageOf movedBlocks).treeAt 1 = .ok before ∧
      ((afterBlocks movedBlocks).cut .toy 2).memory.fold .toy = .ok f ∧
      Complete before f.tree (readPages .toy 1 0 2 ((afterBlocks movedBlocks).cut .toy 2) 0) := by
  have hrun : listed ((afterBlocks movedBlocks).cut .toy 2) = some (false, 1, [⟨"B", .renamed, 2, some "A"⟩]) ∧
      Clear [] (((lineageOf movedBlocks).revisions.drop 1).flatMap Revision.files) ∧
      (((lineageOf movedBlocks).revisions.drop 1).flatMap Revision.files).length < 2 ^ 32 := by decide +kernel
  obtain ⟨hlist, hclear, hsize⟩ := hrun
  obtain ⟨r, hr, htruncated, htotal, -⟩ := listed_eq hlist
  have hfuel : r.total < 2 := by
    rw [htotal]
    decide
  exact (untruncated_changes_complete movedBlocks_run hr htruncated hfuel hclear hsize).2.2

/-- A rename onto a path that came and went in the window: the document is told as new, and
nothing names the path a caller at revision 1 holds. -/
theorem renamed_onto_deleted_unlisted :
    ∃ h L r before f, Run .toy h L ∧ (cmdWikiChanges .toy h 1 0 0).2 = .ok r ∧ r.truncated = false ∧
      L.treeAt 1 = .ok before ∧ h.memory.fold .toy = .ok f ∧
      ¬ Complete before f.tree (readPages .toy 1 0 (r.total + 1) h 0) := by
  have hrun : listed (afterBlocks lostBlocks) = some (false, 1, [⟨"C", .added, 4, none⟩]) ∧
      readPages .toy 1 0 2 (afterBlocks lostBlocks) 0 = [⟨"C", .added, 4, none⟩] ∧
      ((lineageOf lostBlocks).treeAt 1).toOption.map (fun t => t.get? "A") = some (some "A\n") ∧
      ((afterBlocks lostBlocks).memory.fold .toy).toOption.map (fun f => f.tree.get? "A") = some none := by
    decide +kernel
  obtain ⟨hlist, hpages, hbefore, hnow⟩ := hrun
  obtain ⟨r, hr, htruncated, htotal, -⟩ := listed_eq hlist
  cases htree : (lineageOf lostBlocks).treeAt 1 with
  | error e =>
    rw [htree] at hbefore
    exact absurd hbefore (by simp [Except.toOption])
  | ok before =>
    cases hfold : (afterBlocks lostBlocks).memory.fold .toy with
    | error e =>
      rw [hfold] at hnow
      exact absurd hnow (by simp [Except.toOption])
    | ok f =>
      rw [htree] at hbefore
      rw [hfold] at hnow
      have hheld : before.get? "A" = some "A\n" := Option.some.inj hbefore
      have hgone : f.tree.get? "A" = none := Option.some.inj hnow
      refine ⟨afterBlocks lostBlocks, lineageOf lostBlocks, r, before, f, lostBlocks_run, hr, htruncated, htree,
        hfold, ?_⟩
      rw [htotal, hpages]
      intro hcomplete
      obtain ⟨c, hc, hnames⟩ := hcomplete.lost "A" "A\n" hheld (by rw [hgone]; simp)
      rw [List.mem_singleton.mp hc] at hnames
      exact absurd hnames (by decide)

end

end Molt.Wiki
