import Aiopquic.WtContexts
import Mathlib.Data.List.Nodup

/-!
# Borrowed contexts: the worker keeps the invariant

`line` is what asyncio has still to see of a session, in order. Its items stand in an order that the
worker's pushes keep (`Before`), and a session that is open forgets a stream before its link goes.
-/

namespace Aiopquic

namespace WtContexts

variable {s t : WtContexts} {e : SessionTuple} {l : WtLink} {sid k : ℕ} {links : List WtLink}

/-! ## What is still to come -/

/-- The events and the releases that asyncio has still to handle. The links of a batch are freed
behind its events. -/
def line (s : WtContexts) : List RxItem := s.batch.map .event ++ (s.held.map .release ++ s.rx)

def events (s : WtContexts) : List SessionTuple := s.batch ++ s.rx.filterMap RxItem.event?

def releases (s : WtContexts) : List ℕ := s.held ++ s.rx.filterMap RxItem.release?

theorem mem_line_event : .event e ∈ s.line ↔ e ∈ s.events := by
  have hrx : ∀ l : List RxItem, e ∈ l.filterMap RxItem.event? ↔ .event e ∈ l := by
    intro l
    rw [List.mem_filterMap]
    constructor
    · rintro ⟨a, ha, he⟩
      cases a with
      | event e' =>
        cases he
        exact ha
      | release k => cases he
    · exact fun h => ⟨_, h, rfl⟩
  simp [line, events, hrx]

theorem mem_line_release : .release k ∈ s.line ↔ k ∈ s.releases := by
  have hrx : ∀ l : List RxItem, k ∈ l.filterMap RxItem.release? ↔ .release k ∈ l := by
    intro l
    rw [List.mem_filterMap]
    constructor
    · rintro ⟨a, ha, he⟩
      cases a with
      | event e' => cases he
      | release k' =>
        cases he
        exact ha
    · exact fun h => ⟨_, h, rfl⟩
  simp [line, releases, hrx]

/-- An event's context is that of a link of its stream. -/
def Names (links : List WtLink) (e : SessionTuple) : Prop :=
  e.scPtr ≠ 0 → ∃ l ∈ links, l.sid = e.sid ∧ l.sc = e.scPtr

/-- Behind the end of a stream and behind the release of its link no event names the stream's
context, and the end is not behind the release. -/
def Before (links : List WtLink) : RxItem → RxItem → Prop
  | .event d, .event e => d.evtType = .wtStreamDestroy → e.sid = d.sid → e.scPtr = 0
  | .release k, .event e => ∀ l ∈ links, l.addr = k → l.sid = e.sid →
      e.scPtr = 0 ∧ e.evtType ≠ .wtStreamDestroy
  | _, .release _ => True

/-- The session may take in a context. -/
def Open (s : WtContexts) : Prop := s.gone = false ∧ s.session.sessionClosed = false

/-- The session has an end of the stream to come, or has forgotten the stream for good. -/
def Leaving (s : WtContexts) (sid : ℕ) : Prop :=
  (∃ e ∈ s.events, e.evtType = .wtStreamDestroy ∧ e.sid = sid) ∨
    s.session.streamTxCtxs sid = 0 ∧ ∀ e ∈ s.events, e.sid = sid → e.scPtr = 0

structure Inv (s : WtContexts) : Prop where
  nodup : s.tree.Nodup
  used : ∀ sid ∈ s.tree, s.used sid = true
  linked : ∀ sid k, s.link sid = some k → sid ∈ s.tree ∧ ∃ l ∈ s.links, l.addr = k ∧ l.sid = sid
  addrs : (s.links.map (·.addr)).Nodup
  sids : ∀ l ∈ s.links, s.used l.sid = true
  /-- Each link is at one place. -/
  holders : (s.links.map (·.addr)).Perm (s.tree.filterMap s.link ++ s.releases)
  named : ∀ e ∈ s.events, Names s.links e
  order : s.line.Pairwise (Before s.links)
  ended : ∀ e ∈ s.events, e.evtType = .wtStreamDestroy → s.used e.sid = true ∧ e.sid ∉ s.tree
  released : ∀ l ∈ s.links, l.addr ∈ s.releases → l.sid ∉ s.tree
  leaving : s.Open → ∀ l ∈ s.links, l.addr ∈ s.releases → s.Leaving l.sid
  known : s.gone = false → ∀ sid, s.session.streamTxCtxs sid ≠ 0 →
    ∃ l ∈ s.links, l.sid = sid ∧ l.sc = s.session.streamTxCtxs sid
  forgotten : s.session.sessionClosed = true → ∀ sid, s.session.streamTxCtxs sid = 0
  cleanup : .sessionCleanup ∈ s.session.tx ++ s.session.retries → s.session.sessionClosed = true
  deregister : .deregister ∈ s.session.tx ++ s.session.retries → s.gone = true
  detached : s.session.attached = false → s.session.sessionClosed = true
  retired : s.cnx = false → s.tree = []
  freed : s.freed = true → s.tree = []

/-! ## The worker -/

theorem line_push (e : SessionTuple) : (s.push e).line = s.line ++ [.event e] := by
  simp [line, push]

theorem events_push (e : SessionTuple) : (s.push e).events = s.events ++ [e] := by
  simp [events, push, RxItem.event?]

theorem releases_push (e : SessionTuple) : (s.push e).releases = s.releases := by
  simp [releases, push, RxItem.release?]

/-- An event is pushed, about a stream that still has callbacks or about the session. -/
theorem Inv.push (h : s.Inv) (hnames : Names s.links e) (hlive : e.scPtr ≠ 0 → e.sid ∈ s.tree)
    (hend : e.evtType ≠ .wtStreamDestroy) : (s.push e).Inv := by
  refine { h with
    holders := ?_, named := ?_, order := ?_, ended := ?_, released := ?_, leaving := ?_ }
  · rw [releases_push]
    exact h.holders
  · rw [events_push]
    intro d hd
    rcases List.mem_append.1 hd with hd | hd
    · exact h.named d hd
    · rw [List.mem_singleton.1 hd]
      exact hnames
  · rw [line_push, List.pairwise_append]
    refine ⟨h.order, List.pairwise_singleton _ _, fun a ha b hb => ?_⟩
    rw [List.mem_singleton.1 hb]
    by_cases hptr : e.scPtr = 0
    · cases a with
      | event d => exact fun _ _ => hptr
      | release k => exact fun _ _ _ _ => ⟨hptr, hend⟩
    · have htree := hlive hptr
      cases a with
      | event d =>
        intro hd heq
        exact absurd (heq ▸ htree) (h.ended d (mem_line_event.1 ha) hd).2
      | release k =>
        intro l hl haddr heq
        subst haddr
        exact absurd (heq ▸ htree) (h.released l hl (mem_line_release.1 ha))
  · rw [events_push]
    intro d hd hdestroy
    rcases List.mem_append.1 hd with hd | hd
    · exact h.ended d hd hdestroy
    · rw [List.mem_singleton.1 hd] at hdestroy
      exact absurd hdestroy hend
  · rw [releases_push]
    exact h.released
  · rw [releases_push]
    intro hopen l hl hrel
    have hout := h.released l hl hrel
    unfold Leaving
    rw [events_push]
    rcases h.leaving hopen l hl hrel with ⟨d, hd, hdestroy⟩ | ⟨hdict, hnone⟩
    · exact .inl ⟨d, List.mem_append_left _ hd, hdestroy⟩
    · refine .inr ⟨hdict, fun d hd heq => ?_⟩
      rcases List.mem_append.1 hd with hd | hd
      · exact hnone d hd heq
      · rw [List.mem_singleton.1 hd] at heq ⊢
        by_contra hptr
        exact hout (heq ▸ hlive hptr)

/-- A stream id is used up. -/
theorem Inv.use (h : s.Inv) (sid : ℕ) :
    Inv { s with used := Function.update s.used sid true } := by
  have hmono : ∀ x, s.used x = true → Function.update s.used sid true x = true := by
    intro x hx
    rw [Function.update_apply]
    split
    · rfl
    · exact hx
  exact { h with
    used := fun x hx => hmono x (h.used x hx)
    sids := fun l hl => hmono _ (h.sids l hl)
    ended := fun e he hd => ⟨hmono _ (h.ended e he hd).1, (h.ended e he hd).2⟩ }

/-- A new stream. -/
theorem Inv.opened (h : s.Inv) (hnew : s.used sid = false) (hcnx : s.cnx = true)
    (hfreed : s.freed = false) :
    Inv { s with used := Function.update s.used sid true, tree := s.tree ++ [sid] } := by
  have hout : ∀ x, s.used x = true → x ≠ sid := by
    rintro x hx rfl
    rw [hnew] at hx
    cases hx
  have hnot : ∀ x, s.used x = true → x ∉ s.tree → x ∉ s.tree ++ [sid] := by
    intro x hx hmem hin
    rcases List.mem_append.1 hin with hin | hin
    · exact hmem hin
    · exact hout x hx (List.mem_singleton.1 hin)
  have huse := h.use sid
  have hlink : s.link sid = none := by
    cases hk : s.link sid with
    | none => rfl
    | some k => exact absurd (h.used sid (h.linked sid k hk).1) (by simp [hnew])
  refine { huse with
    nodup := ?_, used := ?_, linked := ?_, holders := ?_, ended := ?_, released := ?_
    retired := ?_, freed := ?_ }
  · exact List.nodup_append.2 ⟨h.nodup, List.pairwise_singleton _ _, fun a ha b hb => by
      rw [List.mem_singleton.1 hb]
      exact hout a (h.used a ha)⟩
  · intro x hx
    rcases List.mem_append.1 hx with hx | hx
    · exact huse.used x hx
    · rw [List.mem_singleton.1 hx]
      exact Function.update_self ..
  · intro x k hk
    obtain ⟨hmem, hl⟩ := h.linked x k hk
    exact ⟨List.mem_append_left _ hmem, hl⟩
  · show (s.links.map (·.addr)).Perm ((s.tree ++ [sid]).filterMap s.link ++ s.releases)
    rw [List.filterMap_append, List.filterMap_cons, hlink, List.filterMap_nil, List.append_nil]
    exact h.holders
  · intro e he hd
    obtain ⟨hused, hmem⟩ := h.ended e he hd
    exact ⟨(huse.ended e he hd).1, hnot _ hused hmem⟩
  · intro l hl hrel
    exact hnot _ (h.sids l hl) (h.released l hl hrel)
  · exact fun hr => absurd (hcnx.symm.trans hr) (by simp)
  · exact fun hf => absurd (hfreed.symm.trans hf) (by simp)

/-- The links in a tree of which one stream's changes. -/
theorem filterMap_update {tree : List ℕ} (hnodup : tree.Nodup) (hmem : sid ∈ tree)
    (link : ℕ → Option ℕ) (v : Option ℕ) :
    (tree.filterMap (Function.update link sid v)).Perm
      (v.toList ++ (tree.erase sid).filterMap link) := by
  have hrest : (tree.erase sid).filterMap (Function.update link sid v) =
      (tree.erase sid).filterMap link := by
    refine List.filterMap_congr fun x hx => Function.update_of_ne ?_ _ _
    rintro rfl
    exact (List.Nodup.mem_erase_iff hnodup).1 hx |>.1 rfl
  refine ((List.perm_cons_erase hmem).filterMap _).trans ?_
  rw [List.filterMap_cons, Function.update_self, hrest]
  cases v with
  | none => exact List.Perm.refl _
  | some k => exact List.Perm.refl _

theorem filterMap_erase {tree : List ℕ} {link : ℕ → Option ℕ} {v : Option ℕ} (hmem : sid ∈ tree)
    (hlink : link sid = v) :
    (tree.filterMap link).Perm (v.toList ++ (tree.erase sid).filterMap link) := by
  refine ((List.perm_cons_erase hmem).filterMap _).trans ?_
  rw [List.filterMap_cons, hlink]
  cases v with
  | none => exact List.Perm.refl _
  | some k => exact List.Perm.refl _

/-- An address that is in use. -/
theorem Inv.exists_link (h : s.Inv) (hk : k ∈ s.releases) : ∃ l ∈ s.links, l.addr = k := by
  have hmem := h.holders.mem_iff.2 (List.mem_append_right _ hk)
  obtain ⟨l, hl, haddr⟩ := List.mem_map.1 hmem
  exact ⟨l, hl, haddr⟩

/-- A stream gets its link. -/
theorem Inv.addLink (h : s.Inv) (hmem : l.sid ∈ s.tree) (hnone : s.link l.sid = none)
    (hfresh : s.Fresh l) : (s.addLink l).Inv := by
  have hnew : ∀ k ∈ s.releases, k ≠ l.addr := by
    rintro _ hk rfl
    obtain ⟨l', hl', haddr⟩ := h.exists_link hk
    exact (hfresh.2 l' hl').1 haddr
  refine { h with
    linked := ?_, addrs := ?_, sids := ?_, holders := ?_, named := ?_, order := ?_, released := ?_
    leaving := ?_, known := ?_ }
  · intro x k hk
    have hk : Function.update s.link l.sid (some l.addr) x = some k := hk
    rw [Function.update_apply] at hk
    split at hk
    · rename_i hx
      cases hk
      exact ⟨hx ▸ hmem, l, List.mem_cons_self, rfl, hx.symm⟩
    · obtain ⟨hx, l', hl', hlinks⟩ := h.linked x k hk
      exact ⟨hx, l', List.mem_cons_of_mem _ hl', hlinks⟩
  · refine List.nodup_cons.2 ⟨fun hin => ?_, h.addrs⟩
    obtain ⟨l', hl', haddr⟩ := List.mem_map.1 hin
    exact (hfresh.2 l' hl').1 haddr
  · intro l' hl'
    rcases List.mem_cons.1 hl' with rfl | hl'
    · exact h.used _ hmem
    · exact h.sids l' hl'
  · have hold := h.holders.trans ((filterMap_erase hmem hnone).append_right s.releases)
    exact (hold.cons l.addr).trans
      ((filterMap_update h.nodup hmem s.link (some l.addr)).append_right s.releases).symm
  · intro e he hptr
    obtain ⟨l', hl', hl⟩ := h.named e he hptr
    exact ⟨l', List.mem_cons_of_mem _ hl', hl⟩
  · refine h.order.imp_of_mem fun {a b} ha _ hab => ?_
    cases b with
    | release k' => cases a <;> trivial
    | event e =>
      cases a with
      | event d => exact hab
      | release k =>
        intro l' hl' haddr
        rcases List.mem_cons.1 hl' with rfl | hl'
        · exact absurd haddr.symm (hnew k (mem_line_release.1 ha))
        · exact hab l' hl' haddr
  · intro l' hl' hrel
    rcases List.mem_cons.1 hl' with rfl | hl'
    · exact absurd rfl (hnew _ hrel)
    · exact h.released l' hl' hrel
  · intro hopen l' hl' hrel
    rcases List.mem_cons.1 hl' with rfl | hl'
    · exact absurd rfl (hnew _ hrel)
    · exact h.leaving hopen l' hl' hrel
  · intro hgone x hx
    obtain ⟨l', hl', hl⟩ := h.known hgone x hx
    exact ⟨l', List.mem_cons_of_mem _ hl', hl⟩

/-- A stream leaves the tree, and its link goes to asyncio: behind an end of the stream, or when the
session takes in nothing any more. -/
theorem Inv.leave (h : s.Inv) (hlink : s.link sid = some k) (evs : List SessionTuple)
    (hevs : ∀ e ∈ evs, e.evtType = .wtStreamDestroy ∧ e.sid = sid ∧ e.scPtr = 0)
    (hopen : s.Open → evs ≠ []) :
    Inv { s with
      tree := s.tree.erase sid
      link := Function.update s.link sid none
      rx := s.rx ++ (evs.map .event ++ [.release k]) } := by
  obtain ⟨hmem, l, hl, rfl, rfl⟩ := h.linked sid k hlink
  set u : WtContexts := { s with
    tree := s.tree.erase l.sid
    link := Function.update s.link l.sid none
    rx := s.rx ++ (evs.map .event ++ [.release l.addr]) } with hu
  have hevents : u.events = s.events ++ evs := by
    have hmap : (evs.map RxItem.event).filterMap RxItem.event? = evs := by
      rw [List.filterMap_map]
      exact List.filterMap_some
    show s.batch ++ (s.rx ++ (evs.map RxItem.event ++ [RxItem.release l.addr])).filterMap
      RxItem.event? = _
    rw [List.filterMap_append, List.filterMap_append, hmap, events, List.append_assoc]
    congr 2
    exact List.append_nil _
  have hreleases : u.releases = s.releases ++ [l.addr] := by
    have hmap : (evs.map RxItem.event).filterMap RxItem.release? = [] := by
      rw [List.filterMap_map]
      exact List.filterMap_eq_nil_iff.2 fun _ _ => rfl
    show s.held ++ (s.rx ++ (evs.map RxItem.event ++ [RxItem.release l.addr])).filterMap
      RxItem.release? = _
    rw [List.filterMap_append, List.filterMap_append, hmap, releases, List.append_assoc]
    rfl
  have hline : u.line = s.line ++ (evs.map .event ++ [.release l.addr]) := by
    show s.batch.map .event ++ (s.held.map .release ++ (s.rx ++ _)) = _
    rw [line, List.append_assoc, List.append_assoc]
  have hout : ∀ x, x ∈ s.tree.erase l.sid ↔ x ≠ l.sid ∧ x ∈ s.tree := fun x =>
    h.nodup.mem_erase_iff
  -- the link of a stream is the only one with its address
  have hsame : ∀ l' ∈ s.links, l'.addr = l.addr → l' = l := fun l' hl' haddr =>
    List.inj_on_of_nodup_map h.addrs hl' hl haddr
  refine { h with
    nodup := h.nodup.erase _, used := ?_, linked := ?_, holders := ?_, named := ?_, order := ?_
    ended := ?_, released := ?_, leaving := ?_, retired := ?_, freed := ?_ }
  · exact fun x hx => h.used x ((hout x).1 hx).2
  · intro x k hk
    have hk : Function.update s.link l.sid none x = some k := hk
    rw [Function.update_apply] at hk
    split at hk
    · cases hk
    · rename_i hx
      obtain ⟨hxmem, hl'⟩ := h.linked x k hk
      exact ⟨(hout x).2 ⟨hx, hxmem⟩, hl'⟩
  · have hrest : (s.tree.erase l.sid).filterMap (Function.update s.link l.sid none) =
        (s.tree.erase l.sid).filterMap s.link :=
      List.filterMap_congr fun x hx => Function.update_of_ne ((hout x).1 hx).1 _ _
    show (s.links.map (·.addr)).Perm
      ((s.tree.erase l.sid).filterMap (Function.update s.link l.sid none) ++ u.releases)
    rw [hrest, hreleases, ← List.append_assoc]
    exact (h.holders.trans ((filterMap_erase hmem hlink).append_right _)).trans
      (List.perm_append_singleton _ _).symm
  · rw [hevents]
    intro e he
    rcases List.mem_append.1 he with he | he
    · exact h.named e he
    · exact fun hptr => absurd (hevs e he).2.2 hptr
  · rw [hline, List.pairwise_append, List.pairwise_append, List.pairwise_map]
    have hnew : ∀ e ∈ evs, ∀ a ∈ s.line, Before s.links a (.event e) := by
      intro e he a ha
      obtain ⟨-, hsid, hptr⟩ := hevs e he
      cases a with
      | event d => exact fun _ _ => hptr
      | release k =>
        intro l' hl' haddr heq
        subst haddr
        refine absurd ?_ (h.released l' hl' (mem_line_release.1 ha))
        rw [heq, hsid]
        exact hmem
    refine ⟨h.order, ⟨?_, List.pairwise_singleton _ _, fun a _ b hb => ?_⟩, fun a ha b hb => ?_⟩
    · exact List.pairwise_of_forall_mem_list fun _ _ e he _ _ => (hevs e he).2.2
    · rw [List.mem_singleton.1 hb]
      cases a <;> trivial
    · rcases List.mem_append.1 hb with hb | hb
      · obtain ⟨e, he, rfl⟩ := List.mem_map.1 hb
        exact hnew e he a ha
      · rw [List.mem_singleton.1 hb]
        cases a <;> trivial
  · rw [hevents]
    intro e he hd
    show s.used e.sid = true ∧ e.sid ∉ s.tree.erase l.sid
    rw [hout]
    rcases List.mem_append.1 he with he | he
    · obtain ⟨hused, hnot⟩ := h.ended e he hd
      exact ⟨hused, fun hin => hnot hin.2⟩
    · rw [(hevs e he).2.1]
      exact ⟨h.used _ hmem, fun hin => hin.1 rfl⟩
  · rw [hreleases]
    intro l' hl' hrel
    show l'.sid ∉ s.tree.erase l.sid
    rw [hout]
    rcases List.mem_append.1 hrel with hrel | hrel
    · exact fun hin => h.released l' hl' hrel hin.2
    · rw [hsame l' hl' (List.mem_singleton.1 hrel)]
      exact fun hin => hin.1 rfl
  · rw [hreleases]
    intro hop l' hl' hrel
    unfold Leaving
    rw [hevents]
    rcases List.mem_append.1 hrel with hrel | hrel
    · rcases h.leaving hop l' hl' hrel with ⟨e, he, hd⟩ | ⟨hdict, hnone⟩
      · exact .inl ⟨e, List.mem_append_left _ he, hd⟩
      · refine .inr ⟨hdict, fun e he heq => ?_⟩
        rcases List.mem_append.1 he with he | he
        · exact hnone e he heq
        · exact (hevs e he).2.2
    · rw [hsame l' hl' (List.mem_singleton.1 hrel)]
      obtain ⟨e, he⟩ := List.exists_mem_of_ne_nil _ (hopen hop)
      exact .inl ⟨e, List.mem_append_right _ he, (hevs e he).1, (hevs e he).2.1⟩
  · exact fun hr => absurd (h.retired hr ▸ hmem) List.not_mem_nil
  · exact fun hf => absurd (h.freed hf ▸ hmem) List.not_mem_nil

/-- A stream without a link leaves the tree. -/
theorem Inv.leave_none (h : s.Inv) (hlink : s.link sid = none) :
    Inv { s with tree := s.tree.erase sid } := by
  have hsub : ∀ x, x ∈ s.tree.erase sid → x ∈ s.tree := fun x hx => List.mem_of_mem_erase hx
  refine { h with
    nodup := h.nodup.erase _, used := fun x hx => h.used x (hsub x hx), linked := ?_, holders := ?_
    ended := ?_, released := ?_, retired := ?_, freed := ?_ }
  · intro x k hk
    obtain ⟨hmem, hl⟩ := h.linked x k hk
    refine ⟨(List.mem_erase_of_ne ?_).2 hmem, hl⟩
    rintro rfl
    rw [hlink] at hk
    cases hk
  · show (s.links.map (·.addr)).Perm ((s.tree.erase sid).filterMap s.link ++ s.releases)
    by_cases hmem : sid ∈ s.tree
    · exact h.holders.trans ((filterMap_erase hmem hlink).append_right _)
    · rw [List.erase_of_not_mem hmem]
      exact h.holders
  · exact fun e he hd => ⟨(h.ended e he hd).1, fun hin => (h.ended e he hd).2 (hsub _ hin)⟩
  · exact fun l hl hrel hin => h.released l hl hrel (hsub _ hin)
  · exact fun hr => List.eq_nil_of_subset_nil fun x hx => h.retired hr ▸ hsub x hx
  · exact fun hf => List.eq_nil_of_subset_nil fun x hx => h.freed hf ▸ hsub x hx

theorem Inv.free (h : s.Inv) (sid : ℕ) : (s.free sid).Inv := by
  unfold WtContexts.free
  cases hlink : s.link sid with
  | none =>
    dsimp only
    rw [hlink]
    exact h.leave_none hlink
  | some k =>
    dsimp only
    rw [hlink]
    have hleft := h.leave hlink [{ evtType := .wtStreamDestroy, sid }] (by simp)
      fun _ => List.cons_ne_nil _ _
    rw [← List.append_assoc] at hleft
    exact hleft

/-- One node of a walk: the session takes in nothing any more. -/
theorem Inv.detach (h : s.Inv) (hclosed : ¬ s.Open) (sid : ℕ) : (s.detach sid).Inv := by
  unfold WtContexts.detach
  cases hlink : s.link sid with
  | none => exact h
  | some k => exact h.leave hlink [] (by simp) fun hopen => absurd hopen hclosed

/-- A stream that was never there has no link. -/
theorem Inv.link_eq_none (h : s.Inv) (hnew : s.used sid = false) : s.link sid = none := by
  cases hk : s.link sid with
  | none => rfl
  | some k => exact absurd (h.used sid (h.linked sid k hk).1) (by simp [hnew])

/-- The context of a stream's link. -/
theorem Inv.names_scOf (h : s.Inv) (hptr : s.scOf sid ≠ 0) :
    ∃ l ∈ s.links, l.sid = sid ∧ l.sc = s.scOf sid := by
  rw [scOf] at hptr ⊢
  cases hk : s.link sid with
  | none => simp [hk] at hptr
  | some k =>
    obtain ⟨-, l, hl, haddr, hsid⟩ := h.linked sid k hk
    rw [hk, Option.bind_some] at hptr
    rw [Option.bind_some]
    cases hfind : s.links.find? (·.addr = k) with
    | none => simp [hfind] at hptr
    | some l' =>
      have hmem : l' ∈ s.links := List.mem_of_find?_eq_some hfind
      have haddr' : l'.addr = k := by simpa using List.find?_some hfind
      have heq : l' = l := List.inj_on_of_nodup_map h.addrs hmem hl (haddr'.trans haddr.symm)
      exact ⟨l, hl, hsid, by rw [heq]; rfl⟩

/-- An event about the session, or one that names no context. -/
theorem Inv.push_plain (h : s.Inv) (hptr : e.scPtr = 0) (hend : e.evtType ≠ .wtStreamDestroy) :
    (s.push e).Inv :=
  h.push (fun hne => absurd hptr hne) (fun hne => absurd hptr hne) hend

theorem Inv.ensureLink (h : s.Inv) (hmem : l.sid ∈ s.tree)
    (hfresh : s.link l.sid = none → s.Fresh l) (ok : Bool) :
    (s.ensureLink l ok).Inv ∧ (s.ensureLink l ok).tree = s.tree := by
  unfold WtContexts.ensureLink
  cases hlink : s.link l.sid with
  | some k => exact ⟨h, rfl⟩
  | none =>
    have hadd := h.addLink hmem hlink (hfresh hlink)
    dsimp only
    split
    · refine ⟨hadd.push (fun _ => ?_) (fun _ => hmem) (by simp), rfl⟩
      exact ⟨l, List.mem_cons_self, rfl, rfl⟩
    · exact ⟨hadd, rfl⟩

theorem Inv.pathCallback (h : s.Inv) (hmem : l.sid ∈ s.tree)
    (hfresh : s.link l.sid = none → s.Fresh l) (ok : Bool) (event : PathCallback) :
    (s.pathCallback l ok event).Inv := by
  obtain ⟨hlinked, htree⟩ := h.ensureLink hmem hfresh ok
  have hdata : l.sid ∈ (s.ensureLink l ok).tree := htree ▸ hmem
  cases event with
  | postData bytes merged =>
    unfold WtContexts.pathCallback
    dsimp only
    split
    · exact hlinked
    · exact hlinked.push hlinked.names_scOf (fun _ => hdata) (by simp)
  | postFin bytes =>
    unfold WtContexts.pathCallback
    dsimp only
    split
    · exact hlinked
    · exact hlinked.push hlinked.names_scOf (fun _ => hdata) (by simp)
  | reset errorCode => exact h.push_plain rfl (by simp)
  | stopSending errorCode => exact h.push_plain rfl (by simp)
  | free => exact h.free l.sid

theorem Inv.createStream {outcome : CreateOutcome} (h : s.Inv) (hmakes : s.Makes outcome)
    (hfreed : s.freed = false) : (s.createStream outcome).Inv := by
  unfold WtContexts.createStream
  split
  · exact h.push_plain rfl (by simp)
  · rename_i hcnx
    cases outcome with
    | failed => exact h.push_plain rfl (by simp)
    | unlinked sid => exact (h.use sid).push_plain rfl (by simp)
    | linked l =>
      obtain ⟨hnew, hfresh⟩ := hmakes
      have hopened := h.opened hnew (by simpa using hcnx) hfreed
      have hmem : l.sid ∈ s.tree ++ [l.sid] := List.mem_append_right _ (List.mem_singleton_self _)
      refine (hopened.addLink hmem (h.link_eq_none hnew) hfresh).push (fun _ => ?_) (fun _ => hmem)
        (by simp)
      exact ⟨l, List.mem_cons_self, rfl, rfl⟩

/-! ## The walks -/

/-- What Python has of the session is as before. -/
def SameSession (s t : WtContexts) : Prop := t.session = s.session ∧ t.gone = s.gone

theorem Inv.walk (h : s.Inv) (hclosed : ¬ s.Open) (tree : List ℕ) :
    (tree.foldl WtContexts.detach s).Inv ∧ SameSession s (tree.foldl WtContexts.detach s) := by
  induction tree generalizing s with
  | nil => exact ⟨h, rfl, rfl⟩
  | cons sid tree ih =>
    have hsame : SameSession s (s.detach sid) := by
      unfold WtContexts.detach
      cases s.link sid with
      | none => exact ⟨rfl, rfl⟩
      | some k => exact ⟨rfl, rfl⟩
    have hclosed' : ¬ (s.detach sid).Open := by
      unfold Open
      rw [hsame.1, hsame.2]
      exact hclosed
    obtain ⟨hinv, hsession, hgone⟩ := ih (h.detach hclosed sid) hclosed'
    exact ⟨hinv, hsession.trans hsame.1, hgone.trans hsame.2⟩

theorem link_detach (sid x : ℕ) : (s.detach sid).link x = if x = sid then none else s.link x := by
  unfold detach
  split
  · rename_i hk
    split
    · rename_i hx
      exact hx ▸ hk
    · rfl
  · exact Function.update_apply ..

theorem link_foldl_detach (tree : List ℕ) (x : ℕ) :
    (tree.foldl detach s).link x = if x ∈ tree then none else s.link x := by
  induction tree generalizing s with
  | nil => rfl
  | cons sid tree ih =>
    rw [List.foldl_cons, ih, link_detach]
    by_cases hmem : x ∈ tree
    · rw [if_pos hmem, if_pos (List.mem_cons_of_mem _ hmem)]
    · by_cases hx : x = sid
      · rw [if_neg hmem, if_pos hx, if_pos (hx ▸ List.mem_cons_self)]
      · rw [if_neg hmem, if_neg hx, if_neg (by simp [hx, hmem])]

/-- No stream has a link: the session struct can go. -/
theorem Inv.unhook (h : s.Inv) (hlinks : ∀ sid, s.link sid = none) :
    Inv { s with freed := true, tree := [] } := by
  have hnone : s.tree.filterMap s.link = [] :=
    List.filterMap_eq_nil_iff.2 fun sid _ => hlinks sid
  refine { h with
    nodup := List.nodup_nil, used := ?_, linked := ?_, holders := ?_, ended := ?_, released := ?_
    retired := fun _ => rfl, freed := fun _ => rfl }
  · exact fun _ hmem => absurd hmem List.not_mem_nil
  · exact fun sid k hk => absurd ((hlinks sid).symm.trans hk) (by simp)
  · have hold := h.holders
    rw [hnone] at hold
    exact hold
  · exact fun e he hd => ⟨(h.ended e he hd).1, List.not_mem_nil⟩
  · exact fun _ _ _ => List.not_mem_nil

theorem Inv.destroy (h : s.Inv) (hclosed : ¬ s.Open) :
    Inv { (if s.cnx then s.walk else s) with freed := true, tree := [] } := by
  split
  · obtain ⟨hwalk, -⟩ := h.walk hclosed s.tree
    refine hwalk.unhook fun sid => ?_
    rw [link_foldl_detach]
    split
    · rfl
    · rename_i hmem
      cases hk : s.link sid with
      | none => rfl
      | some k => exact absurd (h.linked sid k hk).1 hmem
  · rename_i hcnx
    refine h.unhook fun sid => ?_
    cases hk : s.link sid with
    | none => rfl
    | some k =>
      have hmem := (h.linked sid k hk).1
      rw [h.retired (by simpa using hcnx)] at hmem
      cases hmem

theorem Inv.frees (h : s.Inv) (tree : List ℕ) : (tree.foldl WtContexts.free s).Inv := by
  induction tree generalizing s with
  | nil => exact h
  | cons sid tree ih => exact ih (h.free sid)

theorem tree_free (sid : ℕ) : (s.free sid).tree = s.tree.erase sid := by
  unfold free
  dsimp only
  split <;> rfl

theorem tree_foldl_free (tree : List ℕ) : (tree.foldl free s).tree = s.tree.diff tree := by
  induction tree generalizing s with
  | nil => rfl
  | cons sid tree ih => rw [List.foldl_cons, ih, tree_free, List.diff_cons]

theorem foldl_free_cnx (tree : List ℕ) :
    tree.foldl free { s with cnx := false } = { tree.foldl free s with cnx := false } := by
  induction tree generalizing s with
  | nil => rfl
  | cons sid tree ih =>
    have hfree : ({ s with cnx := false } : WtContexts).free sid =
        { s.free sid with cnx := false } := by
      unfold free
      dsimp only
      split <;> rfl
    rw [List.foldl_cons, hfree, ih, List.foldl_cons]

theorem Inv.retire {closed : Option SessionTuple} (h : s.Inv) (hplain : ∀ d ∈ closed, Plain d) :
    (s.retire closed).Inv := by
  have hfrees : ∀ {u : WtContexts}, u.Inv →
      Inv (u.tree.foldl WtContexts.free { u with cnx := false }) := by
    intro u hu
    rw [foldl_free_cnx]
    refine { hu.frees u.tree with retired := fun _ => ?_ }
    show (u.tree.foldl WtContexts.free u).tree = []
    rw [tree_foldl_free]
    refine List.eq_nil_iff_forall_not_mem.2 fun x hx => ?_
    obtain ⟨hmem, hnot⟩ := hu.nodup.mem_sdiff_iff.1 hx
    exact hnot hmem
  cases closed with
  | none => exact hfrees h
  | some d =>
    obtain ⟨hof, hptr⟩ := hplain d rfl
    refine hfrees (h.push_plain hptr ?_)
    intro hend
    simp [SessionTuple.ofStream, hend] at hof

end WtContexts

end Aiopquic
