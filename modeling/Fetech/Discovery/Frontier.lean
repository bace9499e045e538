import Fetech.Discovery

/-! What a crawl explores, and what it accounts for.

Whatever the links of the pages say, the queue holds each normalised URL once, on the root's
site and within the depth (`Explored`); whichever pages come back, every one that was issued is
a target, fetched or failed (`Tally`). A turn of the loop keeps both and checks at least one
page, so the loop ends; that the fetches of a batch end in another order changes nothing. -/
namespace Fetech.Discovery
open Lib Lib.Program Lib.Url Http

variable (a : Crawler)

/-- The items that were fetched, in order. -/
def Crawl.checked (s : Crawl) : List FrontierItem := s.issued.flatMap (·.items)

/-- An item that may be in the queue of a crawl of this site. -/
structure OnSite (rootHost : List Char) (limit : Int) (item : FrontierItem) : Prop where
  normal : ∃ target, normalizeUrl a.codecs target = some item.url
  host : a.siteHost item.url = some rootHost
  depth : (item.depth : Int) ≤ limit

/-- The queue of a crawl: what was fetched and what waits, each URL once. -/
structure Explored (root : String) (rootHost : List Char) (limit : Int) (s : Crawl) : Prop where
  seen : s.seen = root :: s.queued.map (·.url)
  once : s.seen.Nodup
  waiting : s.queued = s.checked ++ s.frontier
  onSite : ∀ item ∈ s.queued, OnSite a rootHost limit item

/-- A state is explored further: the queue may have grown, nothing is accounted for. -/
structure Explores (root : String) (rootHost : List Char) (limit : Int) (s t : Crawl) : Prop where
  request : t.context.request = s.context.request
  issued : t.issued = s.issued
  targets : t.targets = s.targets
  pagesChecked : t.pagesChecked = s.pagesChecked
  pagesFetched : t.pagesFetched = s.pagesFetched
  pagesFailed : t.pagesFailed = s.pagesFailed
  explored : Explored a root rootHost limit s → Explored a root rootHost limit t

section
variable {a}
variable {root : String} {rootHost : List Char} {limit : Int}

theorem Explores.refl (s : Crawl) : Explores a root rootHost limit s s := ⟨rfl, rfl, rfl, rfl, rfl, rfl, id⟩

instance : IsPreorder Crawl (Explores a root rootHost limit) where
  refl := Explores.refl
  trans _ _ _ h h' := {
    request := h'.request.trans h.request
    issued := h'.issued.trans h.issued
    targets := h'.targets.trans h.targets
    pagesChecked := h'.pagesChecked.trans h.pagesChecked
    pagesFetched := h'.pagesFetched.trans h.pagesFetched
    pagesFailed := h'.pagesFailed.trans h.pagesFailed
    explored := fun hs => h'.explored (h.explored hs) }

/-- Counting explores nothing. -/
theorem respects_count (name : String) (n : Nat) : Respects (Explores a root rootHost limit) (count name n) :=
  .modify fun _ => ⟨rfl, rfl, rfl, rfl, rfl, rfl, fun h => ⟨h.seen, h.once, h.waiting, h.onSite⟩⟩

/-- A URL of the site that was not seen may come in. -/
theorem Explored.enter {s : Crawl} (h : Explored a root rootHost limit s) {item : FrontierItem}
    (hitem : OnSite a rootHost limit item) (hnew : item.url ∉ s.seen) :
    Explored a root rootHost limit (s.enter item) where
  seen := by simp [Crawl.enter, h.seen]
  once := by
    rw [Crawl.enter, List.nodup_append]
    refine ⟨h.once, List.nodup_singleton _, fun url hurl other hother => ?_⟩
    rw [List.mem_singleton.mp hother]
    intro heq
    exact hnew (heq ▸ hurl)
  waiting := by
    show s.queued ++ [item] = s.checked ++ (s.frontier ++ [item])
    rw [h.waiting, List.append_assoc]
  onSite other hother := by
    obtain hother | hother := List.mem_append.mp hother
    · exact h.onSite other hother
    · rw [List.mem_singleton.mp hother]
      exact hitem

theorem respects_enqueue (item : FrontierItem) :
    Respects (Explores a root rootHost limit) (enqueue a rootHost limit item) := by
  unfold enqueue
  split
  · exact .pure false
  · rename_i candidate hcandidate
    refine ⟨fun s => ?_⟩
    have hcount : ∀ name, (do count name 1; return false : CrawlM Bool).Meets s
        (fun _ t => Explores a root rootHost limit s t) fun _ t => Explores a root rootHost limit s t :=
      fun name => (Respects.bind (respects_count name 1) fun _ => .pure false).meets s
    simp only [meets_bind, meets_get, meets_ite, meets_ofOption, meets_modify, meets_pure]
    refine ⟨fun _ => .refl s, fun hnew => ⟨fun _ => hcount _, fun hdepth => ⟨fun host hhost => ⟨fun _ => hcount _, ?_⟩,
      fun _ => .refl s⟩⟩⟩
    intro hsame
    refine ⟨rfl, rfl, rfl, rfl, rfl, rfl, fun h => h.enter ⟨⟨item.url, hcandidate⟩, ?_, by simpa using hdepth⟩ hnew⟩
    rw [hhost, not_ne_iff.mp hsame]

variable {site : Site} {profile : Profile} {context : ExecutionContext}

theorem respects_followLink (hlimit : context.request.budget.crawlDepth = limit) (pageUrl : String) (depth : Nat)
    (link : String × String) :
    Respects (Explores a root rootHost limit) (followLink a profile rootHost context pageUrl depth link) := by
  subst hlimit
  refine .bind (respects_enqueue _) fun admitted => .when _ ?_
  exact .bind (respects_count _ _) fun _ => .bind (.ofOption _ _) fun _ => respects_count _ _

theorem respects_followLocation (hlimit : context.request.budget.crawlDepth = limit) (pageUrl : String) (depth : Nat)
    (location : List Char) :
    Respects (Explores a root rootHost limit) (followLocation a rootHost context pageUrl depth location) := by
  subst hlimit
  unfold followLocation
  split
  · exact .pure ()
  · exact .bind (respects_enqueue _) fun _ => respects_count _ _

/-- **Whatever a page links to**, the queue stays what it should be. -/
theorem respects_discoverFromLatest (hlimit : context.request.budget.crawlDepth = limit) (pageUrl : String) (depth : Nat) :
    Respects (Explores a root rootHost limit) (discoverFromLatest a site profile rootHost context pageUrl depth) := by
  unfold discoverFromLatest
  split
  · exact .pure ()
  · refine .bind (.ofExcept _) fun body => .ite _ ?_ (.ite _ ?_ (.pure ()))
    · exact .bind (.ofExcept _) fun links => .forEach (respects_followLink hlimit pageUrl depth) links
    · exact .forEach (respects_followLocation hlimit pageUrl depth) _

/-! ### What is accounted for -/

/-- Of the pages checked, all but the last `pending` are targets; they are those that were
issued, and the root. -/
structure Tally (s : Crawl) (pending : Nat) : Prop where
  issued : s.pagesChecked + pending = 1 + s.checked.length
  targets : s.targets.length = s.pagesChecked
  fetched : s.targets.countP (·.fetched) = s.pagesFetched
  total : s.pagesFetched + s.pagesFailed = s.pagesChecked

theorem Tally.of_explores {s t : Crawl} {pending : Nat} (h : Tally s pending) (hst : Explores a root rootHost limit s t) :
    Tally t pending where
  issued := by rw [hst.pagesChecked, Crawl.checked, hst.issued]; exact h.issued
  targets := by rw [hst.targets, hst.pagesChecked]; exact h.targets
  fetched := by rw [hst.targets, hst.pagesFetched]; exact h.fetched
  total := by rw [hst.pagesFetched, hst.pagesFailed, hst.pagesChecked]; exact h.total

/-- One more target, fetched or failed. -/
theorem Tally.next {s t : Crawl} {pending : Nat} {target : DiscoveredTarget} (h : Tally s (pending + 1))
    (hissued : t.issued = s.issued) (hchecked : t.pagesChecked = s.pagesChecked + 1)
    (htargets : t.targets = s.targets ++ [target])
    (hfetched : t.pagesFetched = s.pagesFetched + if target.fetched then 1 else 0)
    (hfailed : t.pagesFailed = s.pagesFailed + if target.fetched then 0 else 1) : Tally t pending where
  issued := by
    have := h.issued
    rw [hchecked, Crawl.checked, hissued, ← Crawl.checked]
    omega
  targets := by rw [htargets, hchecked, List.length_append, h.targets, List.length_singleton]
  fetched := by rw [htargets, hfetched, List.countP_append, h.fetched, List.countP_singleton]
  total := by
    have := h.total
    rw [hfetched, hfailed, hchecked]
    split <;> omega

theorem fetched_of_shownTarget {request : FetchRequest} {item : FrontierItem} {target : DiscoveredTarget}
    (h : shownTarget a request item = some target) : target.fetched = false := by
  simp only [shownTarget, Option.bind_eq_bind, Option.bind_eq_some_iff, Option.pure_def] at h
  obtain ⟨url, -, parentUrl, -, heq⟩ := h
  cases heq
  rfl

variable (a) in
/-- A crawl on its way: explored within its pages, for a request of this depth. -/
structure Within (root : String) (rootHost : List Char) (limit maximumPages : Int) (s : Crawl) : Prop where
  depth : s.context.request.budget.crawlDepth = limit
  explored : Explored a root rootHost limit s
  pages : (1 + s.checked.length : Int) ≤ maximumPages

variable {maximumPages : Int} {schedule : Schedule}

theorem Within.of_explores {s t : Crawl} (h : Within a root rootHost limit maximumPages s)
    (hst : Explores a root rootHost limit s t) : Within a root rootHost limit maximumPages t where
  depth := by rw [hst.request]; exact h.depth
  explored := hst.explored h.explored
  pages := by rw [Crawl.checked, hst.issued]; exact h.pages

/-- The queue is the same, and so is what was issued. -/
theorem Within.congr {s t : Crawl} (h : Within a root rootHost limit maximumPages s)
    (hdepth : t.context.request.budget.crawlDepth = s.context.request.budget.crawlDepth) (hseen : t.seen = s.seen)
    (hqueued : t.queued = s.queued) (hfrontier : t.frontier = s.frontier) (hissued : t.issued = s.issued) :
    Within a root rootHost limit maximumPages t where
  depth := hdepth.trans h.depth
  explored := {
    seen := by rw [hseen, hqueued]; exact h.explored.seen
    once := by rw [hseen]; exact h.explored.once
    waiting := by rw [hqueued, hfrontier, Crawl.checked, hissued]; exact h.explored.waiting
    onSite := by rw [hqueued]; exact h.explored.onSite }
  pages := by rw [Crawl.checked, hissued]; exact h.pages

variable (a) in
/-- Pages of the batches issued are yet to be accounted for. -/
structure Absorbing (root : String) (rootHost : List Char) (limit maximumPages : Int) (issued : List Batch)
    (rest : List Fetched) (s : Crawl) : Prop where
  depth : ∀ fetched ∈ rest, fetched.context.request.budget.crawlDepth = limit
  within : Within a root rootHost limit maximumPages s
  tally : Tally s rest.length
  issued : s.issued = issued

/-- **A page that comes back is accounted for**, whatever came of it. -/
theorem meets_absorb {issued : List Batch} {fetched : Fetched} {rest : List Fetched} {s : Crawl}
    (h : Absorbing a root rootHost limit maximumPages issued (fetched :: rest) s) :
    (absorb a site profile rootHost fetched).Meets s
      (fun _ t => Absorbing a root rootHost limit maximumPages issued rest t)
      fun _ t => Within a root rootHost limit maximumPages t := by
  obtain ⟨hdepth, hwithin, htally, hissued⟩ := h
  obtain ⟨hlimit, hdepth⟩ := List.forall_mem_cons.mp hdepth
  unfold absorb
  simp only [meets_bind, meets_modify, meets_get, meets_ite, meets_ofOption]
  refine ⟨fun _ => ⟨fun target htarget => ?_, fun _ => hwithin.congr rfl rfl rfl rfl rfl⟩,
    fun _ => ⟨fun target _ => ?_, fun _ => hwithin.congr rfl rfl rfl rfl rfl⟩⟩
  · have hout : target.fetched = false := fetched_of_shownTarget htarget
    refine ⟨hdepth, hwithin.congr rfl rfl rfl rfl rfl, htally.next rfl rfl rfl ?_ ?_, hissued⟩ <;> simp [hout]
  · have hpage : Respects (Explores a root rootHost limit)
        (discoverFromLatest a site profile rootHost fetched.context fetched.item.url fetched.item.depth) :=
      respects_discoverFromLatest hlimit _ _
    refine (hpage.meets _).mono (fun _ t hst => ⟨hdepth, ?_, ?_, hst.issued.trans hissued⟩) fun _ t hst => ?_
    · apply Within.of_explores _ hst
      exact hwithin.congr rfl rfl rfl rfl rfl
    · apply Tally.of_explores _ hst
      exact htally.next rfl rfl rfl rfl rfl
    · apply Within.of_explores _ hst
      exact hwithin.congr rfl rfl rfl rfl rfl

/-! ### One turn -/

/-- A fetch that comes back is one of the item, with a request like the crawl's own. -/
theorem fetch_eq_ok {number size : Nat} {item : FrontierItem} {fetched : Fetched}
    (h : fetch site number context size item = .ok fetched) :
    fetched.context.request = subrequest context size item := by
  unfold fetch at h
  dsimp only at h
  split at h
  · cases h
    rfl
  · cases h
    rfl
  · split at h
    · cases h
      rfl
    · cases h

theorem Schedule.perm_tasks {α : Type} (schedule : Schedule) (number : Nat) {size : Nat} {tasks : List α}
    (h : tasks.length = size) : (schedule.order number size).Perm (List.range tasks.length) := h ▸ schedule.perm number size

/-- What is gathered is a page for each item. -/
theorem gathered {number : Nat} {items : List FrontierItem} {results : List Fetched}
    (h : gather (items.map (fetch site number context items.length)) (schedule.order number items.length) = .ok results) :
    results.length = items.length ∧
      ∀ fetched ∈ results, fetched.context.request.budget.crawlDepth = context.request.budget.crawlDepth := by
  have hsize : (items.map (fetch site number context items.length)).length = items.length := List.length_map _
  have hperm := schedule.perm_tasks number hsize
  obtain ⟨pages, hpages⟩ | ⟨err, herr⟩ := all_ok_or_error (items.map (fetch site number context items.length))
  · have hlength : items.length = pages.length := by simpa using congrArg List.length hpages
    rw [hpages, gather_of_ok pages (hlength ▸ schedule.perm number items.length)] at h
    cases h
    refine ⟨hlength.symm, fun fetched hfetched => ?_⟩
    have hmem : Except.ok fetched ∈ items.map (fetch site number context items.length) :=
      hpages ▸ List.mem_map_of_mem hfetched
    obtain ⟨item, -, hitem⟩ := List.mem_map.mp hmem
    rw [fetch_eq_ok hitem]
    rfl
  · obtain ⟨raised, -, hraised⟩ := gather_of_error hperm herr
    rw [hraised] at h
    cases h

theorem checked_issue (s : Crawl) (n : Nat) : (s.issue n).checked = s.checked ++ s.frontier.take n := by
  simp [Crawl.issue, Crawl.checked]

/-- Items that are issued are checked. -/
theorem Within.issue {s : Crawl} (h : Within a root rootHost limit maximumPages s) {n : Nat}
    (hn : (1 + s.checked.length + n : Int) ≤ maximumPages) :
    Within a root rootHost limit maximumPages (s.issue n) := by
  refine ⟨h.depth, ⟨h.explored.seen, h.explored.once, ?_, h.explored.onSite⟩, ?_⟩
  · rw [checked_issue, List.append_assoc]
    show s.queued = s.checked ++ (s.frontier.take n ++ s.frontier.drop n)
    rw [List.take_append_drop]
    exact h.explored.waiting
  · rw [checked_issue, List.length_append, List.length_take]
    omega

/-- **A turn keeps the crawl within its pages and its books in order**, and checks at least one
page if there is to be another turn. -/
theorem meets_turn {s : Crawl} (h : Within a root rootHost limit maximumPages s) (ht : Tally s 0) :
    (turn a site profile schedule rootHost maximumPages).Meets s
      (fun more t => Within a root rootHost limit maximumPages t ∧ Tally t 0 ∧
        (more = true → s.pagesChecked < t.pagesChecked))
      fun _ t => Within a root rootHost limit maximumPages t := by
  unfold turn
  simp only [meets_bind, meets_get, meets_ite, meets_pure, meets_modify, meets_ofExcept]
  refine ⟨fun _ => ⟨h, ht, by simp⟩, fun hmore => ⟨fun _ => ⟨h, ht, by simp⟩, fun hslots => ?_⟩⟩
  generalize hn : min a.batch (min (maximumPages - s.pagesChecked)
    (s.context.request.budget.attempts - s.context.attempts.length)) = slots at hslots ⊢
  have hchecked : s.pagesChecked = 1 + s.checked.length := by
    have := ht.issued
    omega
  have hissue : Within a root rootHost limit maximumPages (s.issue slots.toNat) := h.issue (by omega)
  refine ⟨fun results hresults => ?_, fun _ _ => hissue⟩
  obtain ⟨hlength, hrequests⟩ := gathered hresults
  have hstart : Absorbing a root rootHost limit maximumPages (s.issue slots.toNat).issued results (s.issue slots.toNat) := by
    refine ⟨fun fetched hfetched => (hrequests fetched hfetched).trans h.depth, hissue, ?_, rfl⟩
    refine ⟨?_, ht.targets, ht.fetched, ht.total⟩
    show s.pagesChecked + results.length = 1 + (s.issue slots.toNat).checked.length
    rw [hchecked, hlength, checked_issue, List.length_append]
    omega
  refine (meets_forEach hstart fun fetched rest t h => meets_absorb h).mono (fun _ t ht' => ?_) fun _ _ h' => h'
  refine ⟨ht'.within, ht'.tally, fun _ => ?_⟩
  have hmeasure := ht'.tally.issued
  rw [Crawl.checked, ht'.issued, ← Crawl.checked, checked_issue, List.length_append] at hmeasure
  have hsome : 0 < (s.frontier.take slots.toNat).length := by
    have hwaits : s.frontier ≠ [] := by
      intro hnil
      simp [hnil] at hmore
    rw [List.length_take]
    have := List.length_pos_iff.mpr hwaits
    omega
  simp only [List.length_nil] at hmeasure
  omega

/-! ### The start and the end of a crawl -/

variable (a) in
/-- What may be said of a crawl wherever it stands: each URL was queued once, on the site of the
target and within the depth, and so many pages were checked at most. -/
structure Bounded (request : FetchRequest) (pages : Int) (s : Crawl) : Prop where
  once : (s.queued.map (·.url)).Nodup
  onSite : ∀ item ∈ s.queued, ∃ root rootHost, normalizeUrl a.codecs request.target = some root ∧ item.url ≠ root ∧
    a.siteHost root = some rootHost ∧ OnSite a rootHost request.budget.crawlDepth item
  waiting : s.queued = s.checked ++ s.frontier
  pages : (1 + s.checked.length : Int) ≤ pages

/-- The pages a crawl may check. -/
def pageLimit (context : ExecutionContext) : Int :=
  min context.request.budget.crawlPages (1 + max 0 (context.request.budget.attempts - (context.attempts.length + 1)))

/-- A crawl before it has a root. -/
theorem Bounded.unqueued {request : FetchRequest} {pages : Int} {s : Crawl} (hpages : 1 ≤ pages) (hqueued : s.queued = [])
    (hfrontier : s.frontier = []) (hissued : s.issued = []) : Bounded a request pages s := by
  have hchecked : s.checked = [] := by simp [Crawl.checked, hissued]
  refine ⟨?_, ?_, ?_, ?_⟩
  · rw [hqueued]
    exact List.nodup_nil
  · simp [hqueued]
  · rw [hqueued, hchecked, hfrontier]
    rfl
  · rw [hchecked]
    simpa using hpages

theorem Within.bounded {request : FetchRequest} {s : Crawl}
    (h : Within a root rootHost request.budget.crawlDepth maximumPages s)
    (hroot : normalizeUrl a.codecs request.target = some root) (hhost : a.siteHost root = some rootHost) :
    Bounded a request maximumPages s where
  once := by
    have honce := h.explored.once
    rw [h.explored.seen] at honce
    exact honce.of_cons
  onSite item hitem := by
    have honce := h.explored.once
    rw [h.explored.seen, List.nodup_cons] at honce
    refine ⟨root, rootHost, hroot, fun heq => ?_, hhost, h.explored.onSite item hitem⟩
    exact honce.1 (heq ▸ List.mem_map_of_mem hitem)
  waiting := h.explored.waiting
  pages := h.pages

/-- What `begin` leaves for the loop. -/
structure Started (a : Crawler) (context : ExecutionContext) (start : Start) (s : Crawl) : Prop where
  root : normalizeUrl a.codecs context.request.target = some start.root
  rootHost : a.siteHost start.root = some start.rootHost
  pages : start.maximumPages = pageLimit context
  within : Within a start.root start.rootHost context.request.budget.crawlDepth start.maximumPages s
  tally : Tally s 0

/-- An outcome is recorded. -/
theorem respects_record (f : ExecutionContext → ExecutionContext) (hf : ∀ ctx, (f ctx).request = ctx.request) :
    Respects (Explores a root rootHost limit) (modify fun s => {s with context := f s.context} : CrawlM Unit) :=
  .modify fun _ => ⟨hf _, rfl, rfl, rfl, rfl, rfl, fun h => ⟨h.seen, h.once, h.waiting, h.onSite⟩⟩

theorem meets_searchDiscovery {start : Start} {s : Crawl} (hlimit : s.context.request.budget.crawlDepth = limit) :
    (searchDiscovery a site profile start).Meets s (fun _ t => Explores a start.root start.rootHost limit s t)
      fun _ t => Explores a start.root start.rootHost limit s t := by
  subst hlimit
  have hfollow : ∀ candidate, Respects (Explores a start.root start.rootHost s.context.request.budget.crawlDepth)
      (followResult a start s.context.request.budget.crawlDepth candidate) := fun candidate =>
    .bind .get fun _ => .bind (respects_enqueue _) fun _ => .bind .get fun _ => respects_count _ _
  unfold searchDiscovery
  rw [meets_bind, meets_get]
  refine (Respects.ite _ ?_ (.when _ ?_)).meets s
  · refine .bind (.modify fun t => ⟨rfl, rfl, rfl, rfl, rfl, rfl, fun h => ⟨h.seen, h.once, h.waiting, h.onSite⟩⟩) ?_
    intro _
    split
    · exact .forEach hfollow _
    · exact .ite _ (respects_record (·.recordOutcome _ _ _ _) fun _ => rfl) (.raise _)
  · exact respects_record (·.recordOutcome _ _ _ _) fun _ => rfl

/-- The links of the root and the results of the search are explored. -/
theorem meets_firstLinks {start : Start} {s : Crawl} (hlimit : s.context.request.budget.crawlDepth = limit)
    (sitemap : String) :
    (firstLinks a site profile start limit sitemap).Meets s
      (fun _ t => Explores a start.root start.rootHost limit s t)
      fun _ t => Explores a start.root start.rootHost limit s t := by
  unfold firstLinks
  rw [meets_bind]
  refine ((respects_enqueue _).meets s).mono (fun _ t hst => ?_) fun _ _ h => h
  rw [meets_bind, meets_get, meets_bind]
  have hpage : Respects (Explores a start.root start.rootHost limit)
      (discoverFromLatest a site profile start.rootHost t.context start.root 0) :=
    respects_discoverFromLatest (by rw [hst.request, hlimit]) _ _
  refine (hpage.meets t).mono (fun _ u htu => ?_) fun _ u htu => trans_of _ hst htu
  have hsu := trans_of (Explores a start.root start.rootHost limit) hst htu
  exact (meets_searchDiscovery (by rw [hsu.request, hlimit])).mono (fun _ v huv => trans_of _ hsu huv)
    fun _ v huv => trans_of _ hsu huv

/-- The root alone is explored. -/
theorem Within.root_only {s : Crawl} (hlimit : s.context.request.budget.crawlDepth = limit) (hpages : 1 ≤ maximumPages)
    (hseen : s.seen = [root]) (hqueued : s.queued = []) (hfrontier : s.frontier = []) (hissued : s.issued = []) :
    Within a root rootHost limit maximumPages s where
  depth := hlimit
  explored := {
    seen := by simp [hseen, hqueued]
    once := by simp [hseen]
    waiting := by simp [hqueued, hfrontier, hissued, Crawl.checked]
    onSite := by simp [hqueued] }
  pages := by simpa [Crawl.checked, hissued] using hpages

/-- A crawl starts with its root seen and accounted for. -/
theorem meets_begin {context : ExecutionContext} (hpages : 1 ≤ pageLimit context) (capabilityId : String) :
    (begin a site profile capabilityId).Meets {context} (fun start t => Started a context start t)
      fun _ t => Bounded a context.request (pageLimit context) t := by
  unfold begin
  simp only [meets_bind, meets_check, meets_get, meets_ofOption, meets_modify, meets_pure]
  refine ⟨fun _ => ⟨fun _ => ⟨fun destination _ => ⟨fun root hroot => ⟨fun rootHost hhost => ⟨fun url _ => ⟨fun sitemap _ => ?_,
    fun _ => ?_⟩, fun _ => ?_⟩, fun _ => ?_⟩, fun _ => ?_⟩, fun _ => ?_⟩, fun _ => ?_⟩, fun _ => ?_⟩
  · generalize hs : ({context := _, seen := [root], targets := _, counters := initialCounters} : Crawl) = s
    have hcontext : s.context.request = context.request := by rw [← hs]
    have hwithin : Within a root rootHost context.request.budget.crawlDepth (pageLimit context) s :=
      .root_only (by rw [hcontext]) hpages (by rw [← hs]) (by rw [← hs]) (by rw [← hs]) (by rw [← hs])
    have htally : Tally s 0 := by
      rw [← hs]
      exact ⟨rfl, rfl, rfl, rfl⟩
    refine (meets_firstLinks (by rw [hcontext]) sitemap).mono (fun _ t hst => ?_) fun _ t hst => ?_
    · exact ⟨hroot, hhost, rfl, hwithin.of_explores hst, htally.of_explores hst⟩
    · exact (hwithin.of_explores hst).bounded hroot hhost
  all_goals exact .unqueued hpages rfl rfl rfl

theorem Bounded.congr {request : FetchRequest} {pages : Int} {s t : Crawl} (h : Bounded a request pages s)
    (hqueued : t.queued = s.queued) (hfrontier : t.frontier = s.frontier) (hissued : t.issued = s.issued) :
    Bounded a request pages t where
  once := by rw [hqueued]; exact h.once
  onSite := by rw [hqueued]; exact h.onSite
  waiting := by rw [hqueued, hfrontier, Crawl.checked, hissued]; exact h.waiting
  pages := by rw [Crawl.checked, hissued]; exact h.pages

/-- Only the context changes. -/
def Records (s t : Crawl) : Prop := t = {s with context := t.context}

instance : IsPreorder Crawl Records where
  refl _ := rfl
  trans s t u hst htu := by
    unfold Records at *
    rw [htu, hst]

theorem respects_recordOutcomes (report : Report) : Respects Records (recordOutcomes a report) := by
  have hrecord : ∀ capabilityId status details, Respects Records
      (modify fun s => {s with context := s.context.recordOutcome capabilityId status "discovery" details} : CrawlM Unit) :=
    fun _ _ _ => .modify fun _ => rfl
  refine .bind .get fun s => .bind (.forEach (fun o => hrecord _ _ _) _) fun _ => .bind (hrecord _ _ _) fun _ =>
    .bind (hrecord _ _ _) fun _ => .bind (hrecord _ _ _) fun _ => .bind (.ofOption _ _) fun parts =>
      .bind (hrecord _ _ _) fun _ => .bind .get fun t => .when _ ?_
  exact hrecord _ _ _

/-- What a report says of the crawl it is made from. -/
structure Reports (s : Crawl) (report : Report) : Prop where
  targets : report.targets = s.targets
  fetched : report.pagesFetched = s.pagesFetched
  failed : report.pagesFailed = s.pagesFailed
  omitted : report.frontierOmitted = s.frontier.length

theorem meets_finish {start : Start} {s : Crawl} : (finish a site start).Meets s
    (fun _ t => ∃ report, t = {s with report := some report, context := t.context} ∧ Reports s report)
    fun _ t => t = {s with report := t.report, context := t.context} := by
  unfold finish
  simp only [meets_bind, meets_get, meets_ofOption, meets_ofExcept, meets_modify]
  refine ⟨fun rootUrl _ => ⟨fun stored _ => ⟨fun resource _ => ?_, fun _ => trivial⟩, fun _ _ => trivial⟩, fun _ => trivial⟩
  refine ((respects_recordOutcomes _).meets _).mono (fun _ t hst => ?_) fun _ t hst => ?_
  · exact ⟨_, hst, ⟨rfl, rfl, rfl, rfl⟩⟩
  · rw [show t = _ from hst]

/-! ### Every crawl -/

variable {context : ExecutionContext}

theorem pageLimit_pos (h : context.request.budget.Valid) : 1 ≤ pageLimit context := by
  have := h.crawlPages_pos
  unfold pageLimit
  omega

/-- The loop keeps what a turn keeps. -/
theorem loop_keeps (turns : Nat) {start : Start} {s : Crawl} (h : Started a context start s) :
    Ends (loop (turn a site profile schedule start.rootHost start.maximumPages) turns s)
      (fun t => Started a context start t) fun _ t => Bounded a context.request (pageLimit context) t := by
  apply loop_invariant _ turns h
  intro s h
  refine (meets_turn h.within h.tally).mono (fun more t ht => ?_) fun _ t ht => ?_
  · have hstarted : Started a context start t := ⟨h.root, h.rootHost, h.pages, ht.1, ht.2.1⟩
    cases more with
    | false => exact hstarted
    | true => exact hstarted
  · exact h.pages ▸ ht.bounded h.root h.rootHost

/-- The pages of the request are turns enough, and what a turn keeps holds at the end. -/
theorem loop_turns (site : Site) (profile : Profile) (schedule : Schedule) {start : Start} {s : Crawl}
    (h : Started a context start s) :
    ∃ outcome, (∀ turns : Nat, context.request.budget.crawlPages ≤ turns →
        loop (turn a site profile schedule start.rootHost start.maximumPages) turns s = some outcome) ∧
      Ends (some outcome) (fun t => Started a context start t)
        fun _ t => Bounded a context.request (pageLimit context) t := by
  have hturns : ∃ outcome, ∀ turns, (start.maximumPages - s.pagesChecked).toNat < turns →
      loop (turn a site profile schedule start.rootHost start.maximumPages) turns s = some outcome := by
    apply loop_ends (I := Started a context start) (fun s => (start.maximumPages - s.pagesChecked).toNat) _ h
    intro s h
    refine (meets_turn h.within h.tally).mono (fun more t ht hmore => ?_) fun _ _ _ => trivial
    have hchecked := ht.2.1.issued
    have hpages := ht.1.pages
    have hfurther := ht.2.2 hmore
    exact ⟨⟨h.root, h.rootHost, h.pages, ht.1, ht.2.1⟩, by omega⟩
  obtain ⟨outcome, houtcome⟩ := hturns
  suffices henough : ∀ turns : Nat, context.request.budget.crawlPages ≤ turns →
      (start.maximumPages - s.pagesChecked).toNat < turns by
    refine ⟨outcome, fun turns hturns => houtcome turns (henough turns hturns), ?_⟩
    rw [← houtcome _ (henough context.request.budget.crawlPages.toNat (Int.self_le_toNat _))]
    exact loop_keeps _ h
  intro turns hturns
  have hchecked := h.tally.issued
  have hlimit : start.maximumPages ≤ context.request.budget.crawlPages := by
    rw [h.pages]
    exact min_le_left _ _
  have hpages := h.within.pages
  omega

/-- In whatever order the fetches of a batch end, its turn ends alike. -/
theorem sameEnd_turn (schedule schedule' : Schedule) (s : Crawl) :
    SameEnd (turn a site profile schedule rootHost maximumPages s) (turn a site profile schedule' rootHost maximumPages s) := by
  have hgather : ∀ (number : Nat) (context : ExecutionContext) (items : List FrontierItem) (t : Crawl),
      let fetches := items.map (fetch site number context items.length)
      SameEnd ((ofExcept (gather fetches (schedule.order number items.length)) : CrawlM _) t)
        ((ofExcept (gather fetches (schedule'.order number items.length)) : CrawlM _) t) := by
    intro number context items t fetches
    have hsize : fetches.length = items.length := List.length_map _
    obtain hsame | ⟨⟨err, herr⟩, err', herr'⟩ := gather_same (schedule.perm_tasks number hsize)
      (schedule'.perm_tasks number hsize)
    · exact .inl (congrArg (·, t) hsame)
    · exact .inr ⟨⟨err, t, congrArg (·, t) herr⟩, err', t, congrArg (·, t) herr'⟩
  unfold turn
  show SameEnd ((if _ then _ else _ : CrawlM Bool) s) ((if _ then _ else _ : CrawlM Bool) s)
  split
  · exact .inl rfl
  · dsimp only
    split
    · exact .inl rfl
    · exact (hgather _ _ _ _).bind _

/-- The report of a crawl that returns. -/
def reported : Option (Except HttpError Unit × Crawl) → Option Report
  | some (.ok (), s) => s.report
  | _ => none

theorem reported_schedule (schedule schedule' : Schedule) (turns : Nat) (capabilityId : String) :
    reported (execute a site profile schedule turns capabilityId context) =
      reported (execute a site profile schedule' turns capabilityId context) := by
  unfold execute
  split
  · rfl
  · rename_i start s _
    obtain hsame | ⟨x, y, hx, hy, hsame | ⟨⟨err, t, rfl⟩, err', t', rfl⟩⟩ :=
      loop_congr (sameEnd_turn schedule schedule') turns s
    · rw [hsame]
    · rw [hx, hy, hsame]
    · rw [hx, hy]
      rfl

/-- The books of a crawl that returned. -/
structure Accounts (s : Crawl) (report : Report) : Prop where
  pages : report.pagesFetched + report.pagesFailed = report.targets.length
  fetched : report.targets.countP (·.fetched) = report.pagesFetched
  checked : report.targets.length = 1 + s.checked.length
  omitted : s.checked.length + report.frontierOmitted = s.queued.length

/-- What the end of a crawl leaves. -/
theorem finished {start : Start} {s : Crawl} (h : Started a context start s) :
    Bounded a context.request (pageLimit context) (finish a site start s).2 ∧
      ((finish a site start s).1 = .ok () →
        ∃ report, (finish a site start s).2.report = some report ∧ Accounts (finish a site start s).2 report) := by
  have hfinish : (finish a site start).Meets s _ _ := meets_finish
  have hbounded : Bounded a context.request (pageLimit context) s := h.pages ▸ h.within.bounded h.root h.rootHost
  unfold Meets at hfinish
  cases hend : finish a site start s with
  | mk r t =>
    rw [hend] at hfinish
    cases r with
    | error err =>
      refine ⟨?_, fun h => nomatch h⟩
      rw [show t = _ from hfinish]
      exact hbounded.congr rfl rfl rfl
    | ok _ =>
      obtain ⟨report, ht, hreports⟩ := hfinish
      have hissued := h.tally.issued
      have hwaiting := congrArg List.length h.within.explored.waiting
      rw [List.length_append] at hwaiting
      refine ⟨?_, fun _ => ⟨report, ?_, ?_, ?_, ?_, ?_⟩⟩
      · rw [ht]
        exact hbounded.congr rfl rfl rfl
      · rw [ht]
      · rw [hreports.fetched, hreports.failed, hreports.targets, h.tally.total, h.tally.targets]
      · rw [hreports.targets, hreports.fetched, h.tally.fetched]
      · rw [hreports.targets, h.tally.targets, ht]
        exact hissued
      · rw [hreports.omitted, ht]
        exact hwaiting.symm

end

/-- A site whose pages all link to `/next` and to another site. -/
def linkedCrawler : Crawler where
  codecs := plainCodecs
  feed _ := ([.startTag "a" [("href", some "/next")], .startTag "a" [("href", some "http://other.org/")]], none)
  isWord := isAlpha

def linkedPage (request : FetchRequest) : ExecutionContext where
  request
  resources := [{resourceId := 0}]
  artifacts := [{artifactId := 0, mediaType := "text/html", quality := {accepted := true}}]

def linkedSite : Site where
  page _ request := (.ok (), linkedPage request)
  body _ _ := .ok []
  search _ _ := .ok []
  stored _ := .ok ("cas://report", "", 0)

example : (reported (execute linkedCrawler linkedSite {} .inOrder 20 "depth_limited_crawl"
      (linkedPage {target := "http://example.org/"}))).map (fun report => report.targets.map (·.url)) =
    some ["http://example.org/", "http://example.org/sitemap.xml", "http://example.org/next"] := by
  decide +kernel

end Fetech.Discovery
