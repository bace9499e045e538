import Fetech.Variants.Acceptance

/-! The map of candidates a target is expanded to (`generate_variant_map` in
`fetech/variants.py` and the start of `VariantAdapter.execute` in
`fetech/adapters/variants.py`).

Candidates are compared with their target for downgrades and stored without their secrets, and
either may raise on a candidate that cannot be read. The target decides: its authority has to be
read, and its host has to be one that may stand without brackets. -/
namespace Fetech.Variants
open Lib.Url

/-! ### The map -/

/-- What becomes of a candidate. -/
theorem keepCandidate_eq {c : Codecs} {q q' : SplitResult} (hq : Web q) (hok : bracketsOk c.toTables q.netloc = true)
    (hq' : Web q') (name : String) :
    keepCandidate c (String.ofList (urlunsplit q)) (name, some (String.ofList (urlunsplit q'))) =
      if q.scheme = "https".toList then
        if bracketsOk c.toTables q'.netloc then
          some (name, if q'.scheme = "http".toList then none else some (String.ofList (urlunsplit q')))
        else none
      else some (name, some (String.ofList (urlunsplit q'))) := by
  have hbefore : urlsplit c.toTables (String.ofList (urlunsplit q)).toList = some q := by
    rw [String.toList_ofList, hq.urlsplit_eq, hok]
    rfl
  have hafter : urlsplit c.toTables (String.ofList (urlunsplit q')).toList =
      if bracketsOk c.toTables q'.netloc then some q' else none := by
    rw [String.toList_ofList, hq'.urlsplit_eq]
  generalize String.ofList (urlunsplit q') = candidate at hafter ⊢
  simp only [keepCandidate, downgrades, hbefore, hafter, Option.bind_eq_bind, Option.bind_some, Option.pure_def]
  by_cases hscheme : q.scheme = "https".toList
  · cases bracketsOk c.toTables q'.netloc with
    | false => simp only [hscheme, if_true, Bool.false_eq_true, if_false, Option.bind_none, Option.map_none]
    | true => simp only [hscheme, if_true, Option.bind_some, Option.map_some, decide_eq_true_eq]
  · simp only [if_neg hscheme, Option.map_some, Bool.false_eq_true, if_false]

/-- **A candidate that stays is accepted**, if its authority is read; one whose authority is not
read stays only beside a target that may be downgraded to it. -/
theorem kept_iff {c : Codecs} (hc : c.Idna) {q q' : SplitResult} (hq : Web q) (hok : bracketsOk c.toTables q.netloc = true)
    (hq' : Web q') (name : String) :
    (∃ kept, keepCandidate c (String.ofList (urlunsplit q)) (name, some (String.ofList (urlunsplit q'))) = some kept ∧
        ∀ url, kept.2 = some url → (normalizeUrl c url).isSome = true) ↔
      Readable c.toTables q' ∨ (q.scheme = "https".toList ∧ q'.scheme = "http".toList ∧
        bracketsOk c.toTables q'.netloc = true) := by
  have haccepted := hq'.accepted_iff hc
  rw [keepCandidate_eq hq hok hq']
  generalize String.ofList (urlunsplit q') = candidate at haccepted ⊢
  generalize "https".toList = https
  generalize "http".toList = http
  by_cases hscheme : q.scheme = https
  · rw [if_pos hscheme]
    cases hbrackets : bracketsOk c.toTables q'.netloc with
    | false =>
      have hno : ¬Readable c.toTables q' := fun h => by
        rw [h.brackets] at hbrackets
        cases hbrackets
      simp [hno]
    | true =>
      by_cases hdown : q'.scheme = http
      · simp [hscheme, hdown]
      · simp [hdown, haccepted]
  · simp [hscheme, haccepted]

theorem generateVariantMap_eq {c : Codecs} {target : String} {q : SplitResult} {written : Option Nat}
    {language region canonicalUrl : Option String} (hq : Web q) (hok : bracketsOk c.toTables q.netloc = true)
    (hurl : normalizeUrl c target = some (String.ofList (urlunsplit q))) (hport : q.port = some written) :
    ∃ clean, (∃ pairs, clean = unsplit q.scheme q.netloc q.path (urlencode pairs)) ∧
      generateVariantMap c target language region canonicalUrl =
        (candidates c (String.ofList (urlunsplit q)) clean q written language region canonicalUrl).mapM
          (keepCandidate c (String.ofList (urlunsplit q))) := by
  have hsplit : urlsplit c.toTables (String.ofList (urlunsplit q)).toList = some q := by
    rw [String.toList_ofList, hq.urlsplit_eq, hok]
    rfl
  refine ⟨unsplit q.scheme q.netloc q.path
    (urlencode ((parseQslKeeping q.query).filter fun pair => !isTracking c pair.1)), ⟨_, rfl⟩, ?_⟩
  have hclean : cleanQueryParameters c (String.ofList (urlunsplit q)) = some (unsplit q.scheme q.netloc q.path
      (urlencode ((parseQslKeeping q.query).filter fun pair => !isTracking c pair.1))) := by
    rw [cleanQueryParameters, hsplit]
    rfl
  generalize String.ofList (urlunsplit q) = original at *
  simp only [generateVariantMap, hurl, hsplit, hport, hclean, Option.bind_eq_bind, Option.bind_some]

/-! ### Targets that can be expanded -/

/-- The candidates of a target are targets: a map is made, what is in it is accepted and does not
leave `https`, and every request for the target stores its candidates. -/
structure Expands (c : Codecs) (target url : String) (language region canonicalUrl : Option String) : Prop where
  generated : ∃ map, generateVariantMap c target language region canonicalUrl = some map ∧
    ∀ entry ∈ map, ∀ candidate, entry.2 = some candidate → (normalizeUrl c candidate).isSome = true ∧
      ∀ before after, urlsplit c.toTables url.toList = some before → urlsplit c.toTables candidate.toList = some after →
        before.scheme = "https".toList → after.scheme ≠ "http".toList
  executed : ∀ request : FetchRequest, request.target = target → request.language = language →
    (expandCandidates c request region canonicalUrl).isSome = true

/-- The normal form of a target is read, its host may stand without brackets and with the port
behind it, and the canonical URL of the page, if it is a target, is read too or is plain HTTP
beside `https`. -/
def Expandable (c : Codecs) (url : String) (canonicalUrl : Option String) : Prop :=
  ∃ parts written, urlsplit c.toTables url.toList = some parts ∧ parts.port = some written ∧
    Readable c.toTables parts ∧ Bare parts.rawHost (withPort (written.filter (· ≠ 0))) ∧
    ∀ observed, safeOptionalUrl c canonicalUrl = some observed →
      ∃ other, urlsplit c.toTables observed.toList = some other ∧
        (Readable c.toTables other ∨ (parts.scheme = "https".toList ∧ other.scheme = "http".toList))

section
variable {c : Codecs} (hc : c.Idna) {target : String} {q : SplitResult} {written : Option Nat}
  {language region canonicalUrl : Option String} (hq : Web q) (hok : bracketsOk c.toTables q.netloc = true)
include hc hq hok

omit hq hok in
theorem web_observed {url : String} (h : safeOptionalUrl c canonicalUrl = some url) :
    ∃ q', Web q' ∧ url = String.ofList (urlunsplit q') := by
  unfold safeOptionalUrl at h
  split at h
  · cases h
  · obtain ⟨parts, encoded, port, hread, rfl⟩ := normalizeUrl_iff.mp h
    exact ⟨_, web_normalForm hc hread, rfl⟩

/-- What every candidate has to be for the map to be made of accepted ones. -/
theorem fine_of_map {clean : String} {map : List (String × Option String)}
    (hmap : (candidates c (String.ofList (urlunsplit q)) clean q written language region canonicalUrl).mapM
      (keepCandidate c (String.ofList (urlunsplit q))) = some map)
    (haccepted : ∀ entry ∈ map, ∀ url, entry.2 = some url → (normalizeUrl c url).isSome = true) {q' : SplitResult}
    (hq' : Web q') {entry : String × Option String}
    (hentry : entry ∈ candidates c (String.ofList (urlunsplit q)) clean q written language region canonicalUrl)
    (hurl : entry.2 = some (String.ofList (urlunsplit q'))) :
    Readable c.toTables q' ∨ (q.scheme = "https".toList ∧ q'.scheme = "http".toList ∧
      bracketsOk c.toTables q'.netloc = true) := by
  obtain ⟨name, url⟩ := entry
  cases hurl
  have hall := Lib.Except.mapM_isSome_iff.mp (Option.isSome_iff_exists.mpr ⟨map, hmap⟩) _ hentry
  obtain ⟨kept, hkept⟩ := Option.isSome_iff_exists.mp hall
  refine (kept_iff hc hq hok hq' name).mp ⟨kept, hkept, haccepted kept ?_⟩
  exact (Lib.Except.mem_mapM hmap kept).mpr ⟨_, hentry, hkept⟩

theorem expandable_of_map {clean : String} {map : List (String × Option String)} (hport : q.port = some written)
    (hmap : (candidates c (String.ofList (urlunsplit q)) clean q written language region canonicalUrl).mapM
      (keepCandidate c (String.ofList (urlunsplit q))) = some map)
    (haccepted : ∀ entry ∈ map, ∀ url, entry.2 = some url → (normalizeUrl c url).isSome = true) :
    Expandable c (String.ofList (urlunsplit q)) canonicalUrl := by
  have hfine : ∀ {q' : SplitResult}, Web q' → ∀ {entry : String × Option String},
      entry ∈ candidates c (String.ofList (urlunsplit q)) clean q written language region canonicalUrl →
        entry.2 = some (String.ofList (urlunsplit q')) → Readable c.toTables q' ∨ (q.scheme = "https".toList ∧
          q'.scheme = "http".toList ∧ bracketsOk c.toTables q'.netloc = true) :=
    fine_of_map hc hq hok hmap haccepted
  have hdown : ∀ {scheme : List Char}, scheme = "https".toList → scheme = "http".toList → False := by
    intro scheme hhttps hhttp
    exact absurd (hhttps.symm.trans hhttp) (by decide)
  have hreadable : Readable c.toTables q := by
    obtain ⟨entry, hentry, q', hq', hsame, hscheme, hurl⟩ : ∃ entry ∈
        candidates c (String.ofList (urlunsplit q)) clean q written language region canonicalUrl,
        ∃ q', Web q' ∧ q'.netloc = q.netloc ∧ q'.scheme = q.scheme ∧ entry.2 = some (String.ofList (urlunsplit q')) :=
      print_mem hq
    obtain hread | ⟨hhttps, hhttp, -⟩ := hfine hq' hentry hurl
    · exact hread.of_netloc hsame.symm
    · exact (hdown hhttps (hscheme ▸ hhttp)).elim
  have hhost : q.hostname c.toTables ≠ [] := by
    rw [hq.hostname_eq]
    exact hreadable.host
  have hsplit : urlsplit c.toTables (String.ofList (urlunsplit q)).toList = some q := by
    rw [String.toList_ofList, hq.urlsplit_eq, hok]
    rfl
  refine ⟨q, written, hsplit, hport, hreadable, ?_, fun observed hobserved => ?_⟩
  · refine (readable_renamed_iff (t := c.toTables) (q := q) q.at_notMem_rawHost (close_notMem_rawHost hq.at_notMem hok)).mp fun name hname => ?_
    obtain ⟨entry, hentry, hurl⟩ : ∃ entry ∈
        candidates c (String.ofList (urlunsplit q)) clean q written language region canonicalUrl,
        entry.2 = some (unsplit q.scheme (name ++ withPort (written.filter (· ≠ 0))) q.path q.query) :=
      renamed_mem hhost (hq.hostname_eq c.toTables ▸ hname)
    obtain hread | ⟨hhttps, hhttp, -⟩ := hfine (hq.renamed hname _) hentry hurl
    · exact hread.of_netloc rfl
    · exact (hdown hhttps hhttp).elim
  · obtain ⟨q', hq', rfl⟩ := web_observed hc hobserved
    obtain ⟨entry, hentry, hurl⟩ : ∃ entry ∈
        candidates c (String.ofList (urlunsplit q)) clean q written language region canonicalUrl,
        entry.2 = safeOptionalUrl c canonicalUrl := observed_mem
    have hother : bracketsOk c.toTables q'.netloc = true →
        urlsplit c.toTables (String.ofList (urlunsplit q')).toList = some q' := by
      intro hbrackets
      rw [String.toList_ofList, hq'.urlsplit_eq, hbrackets]
      rfl
    obtain hread | ⟨hhttps, hhttp, hbrackets⟩ := hfine hq' hentry (hurl.trans hobserved)
    · exact ⟨q', hother hread.brackets, .inl hread⟩
    · exact ⟨q', hother hbrackets, .inr ⟨hhttps, hhttp⟩⟩

/-- What a target that can be expanded makes of each candidate. -/
theorem fine_of_expandable {clean : String} (hclean : ∃ pairs, clean = unsplit q.scheme q.netloc q.path (urlencode pairs))
    (hport : q.port = some written) (h : Expandable c (String.ofList (urlunsplit q)) canonicalUrl) :
    ∀ entry ∈ candidates c (String.ofList (urlunsplit q)) clean q written language region canonicalUrl,
      ∀ url, entry.2 = some url → ∃ q', Web q' ∧ url = String.ofList (urlunsplit q') ∧
        (Readable c.toTables q' ∨ (q.scheme = "https".toList ∧ q'.scheme = "http".toList ∧
          bracketsOk c.toTables q'.netloc = true)) := by
  obtain ⟨parts, written', hsplit, hport', hreadable, hbare, hobserved⟩ := h
  have hsame : parts = q := by
    rw [String.toList_ofList, hq.urlsplit_eq, hok] at hsplit
    exact (Option.some.inj hsplit).symm
  cases hsame
  cases Option.some.inj (hport.symm.trans hport')
  intro entry hentry url hurl
  cases candidate_of_mem hq hclean entry hentry url hurl with
  | same q' hq' hnetloc _ => exact ⟨q', hq', rfl, .inl (hreadable.of_netloc hnetloc)⟩
  | renamed name _ hname =>
    rw [hq.hostname_eq] at hname
    have hread := (readable_renamed_iff (t := c.toTables) (q := q) q.at_notMem_rawHost
      (close_notMem_rawHost hq.at_notMem hok)).mpr hbare name hname
    exact ⟨_, hq.renamed hname _, rfl, .inl (hread.of_netloc rfl)⟩
  | observed _ hcanonical =>
    obtain ⟨q', hq', rfl⟩ := web_observed hc hcanonical
    obtain ⟨other, hother, hfine⟩ := hobserved _ hcanonical
    rw [String.toList_ofList, hq'.urlsplit_eq, Option.ite_none_right_eq_some] at hother
    obtain ⟨hbrackets, hsame⟩ := hother
    cases hsame
    exact ⟨q', hq', rfl, hfine.imp_right fun ⟨hhttps, hhttp⟩ => ⟨hhttps, hhttp, hbrackets⟩⟩

theorem expands_of_expandable (hurl : normalizeUrl c target = some (String.ofList (urlunsplit q)))
    (h : Expandable c (String.ofList (urlunsplit q)) canonicalUrl) :
    Expands c target (String.ofList (urlunsplit q)) language region canonicalUrl := by
  obtain ⟨written, hport⟩ : ∃ written, q.port = some written := by
    obtain ⟨parts, written, hsplit, hport, -⟩ := h
    rw [String.toList_ofList, hq.urlsplit_eq, hok] at hsplit
    cases hsplit
    exact ⟨written, hport⟩
  obtain ⟨clean, hclean, hmap⟩ : ∃ clean, (∃ pairs, clean = unsplit q.scheme q.netloc q.path (urlencode pairs)) ∧
      generateVariantMap c target language region canonicalUrl =
        (candidates c (String.ofList (urlunsplit q)) clean q written language region canonicalUrl).mapM
          (keepCandidate c (String.ofList (urlunsplit q))) := generateVariantMap_eq hq hok hurl hport
  have hfine : ∀ entry ∈ candidates c (String.ofList (urlunsplit q)) clean q written language region canonicalUrl,
      ∀ url, entry.2 = some url → ∃ q', Web q' ∧ url = String.ofList (urlunsplit q') ∧
        (Readable c.toTables q' ∨ (q.scheme = "https".toList ∧ q'.scheme = "http".toList ∧
          bracketsOk c.toTables q'.netloc = true)) := fine_of_expandable hc hq hok hclean hport h
  -- Every candidate is kept, or taken out as a downgrade.
  have hkept : ∀ entry ∈ candidates c (String.ofList (urlunsplit q)) clean q written language region canonicalUrl,
      ∃ kept, keepCandidate c (String.ofList (urlunsplit q)) entry = some kept ∧ ∀ url, kept.2 = some url →
        ∃ q', Web q' ∧ url = String.ofList (urlunsplit q') ∧ Readable c.toTables q' ∧
          (q.scheme = "https".toList → q'.scheme ≠ "http".toList) := by
    intro entry hentry
    cases hcandidate : entry.2 with
    | none =>
      refine ⟨entry, ?_, fun url hurl => ?_⟩
      · rw [keepCandidate, hcandidate]
      · rw [hcandidate] at hurl
        cases hurl
    | some url =>
      obtain ⟨q', hq', rfl, hread⟩ := hfine entry hentry url hcandidate
      have hkeep := keepCandidate_eq hq hok hq' entry.1
      have hentry' : entry = (entry.1, some (String.ofList (urlunsplit q'))) := by rw [← hcandidate]
      rw [← hentry'] at hkeep
      obtain hread | ⟨hhttps, hhttp, hbrackets⟩ := hread
      · by_cases hscheme : q.scheme = "https".toList
        · rw [if_pos hscheme, if_pos hread.brackets] at hkeep
          refine ⟨_, hkeep, fun url hurl => ?_⟩
          rw [Option.ite_none_left_eq_some] at hurl
          exact ⟨q', hq', (Option.some.inj hurl.2).symm, hread, fun _ => hurl.1⟩
        · rw [if_neg hscheme] at hkeep
          refine ⟨_, hkeep, fun url hurl => ?_⟩
          cases hcandidate.symm.trans hurl
          exact ⟨q', hq', rfl, hread, fun hhttps => absurd hhttps hscheme⟩
      · rw [if_pos hhttps, if_pos hbrackets, if_pos hhttp] at hkeep
        refine ⟨_, hkeep, fun url hurl => ?_⟩
        cases hurl
  have hsome : (generateVariantMap c target language region canonicalUrl).isSome = true := by
    rw [hmap, Lib.Except.mapM_isSome_iff]
    intro entry hentry
    obtain ⟨kept, hkept, -⟩ := hkept entry hentry
    rw [hkept]
    rfl
  obtain ⟨map, hgenerated⟩ := Option.isSome_iff_exists.mp hsome
  have hweb : ∀ entry ∈ map, ∀ url, entry.2 = some url → ∃ q', Web q' ∧ url = String.ofList (urlunsplit q') ∧
      Readable c.toTables q' ∧ (q.scheme = "https".toList → q'.scheme ≠ "http".toList) := by
    intro entry hentry
    rw [hmap] at hgenerated
    obtain ⟨candidate, hcandidate, hsame⟩ := (Lib.Except.mem_mapM hgenerated entry).mp hentry
    obtain ⟨kept, hkeep, hweb⟩ := hkept candidate hcandidate
    cases Option.some.inj (hsame.symm.trans hkeep)
    exact hweb
  refine ⟨⟨map, hgenerated, fun entry hentry url hurl => ?_⟩, ?_⟩
  · obtain ⟨q', hq', rfl, hread, hscheme⟩ := hweb entry hentry url hurl
    refine ⟨(hq'.accepted_iff hc).mpr hread, fun before after hbefore hafter hhttps => ?_⟩
    rw [String.toList_ofList, hq.urlsplit_eq, hok] at hbefore
    rw [String.toList_ofList, hq'.urlsplit_eq, hread.brackets] at hafter
    cases hbefore
    cases hafter
    exact hscheme hhttps
  · rintro request rfl rfl
    rw [expandCandidates, hgenerated, Option.bind_eq_bind, Option.bind_some, Lib.Except.mapM_isSome_iff]
    intro entry hentry
    cases hcandidate : entry.2 with
    | none => rfl
    | some url =>
      obtain ⟨q', hq', rfl, hread, -⟩ := hweb entry hentry url hcandidate
      show ((sanitizeUrlForRequest c (String.ofList (urlunsplit q')) request).map _).isSome = true
      rw [Option.isSome_map]
      exact hq'.shown hread request

end

/-- **The candidates of a target are targets exactly if it can be expanded**: for every accepted
target, language, region and canonical URL. -/
theorem expands_iff (c : Codecs) (hc : c.Idna) (target url : String) (hurl : normalizeUrl c target = some url)
    (language region canonicalUrl : Option String) :
    Expands c target url language region canonicalUrl ↔ Expandable c url canonicalUrl := by
  obtain ⟨parts, encoded, port, hread, rfl⟩ := normalizeUrl_iff.mp hurl
  have hq := web_normalForm hc hread
  generalize normalForm c parts encoded port = q at hq hurl
  have hsplit : ∀ parts, urlsplit c.toTables (String.ofList (urlunsplit q)).toList = some parts →
      bracketsOk c.toTables q.netloc = true ∧ q = parts := by
    intro parts hparts
    rw [String.toList_ofList, hq.urlsplit_eq, Option.ite_none_right_eq_some] at hparts
    exact ⟨hparts.1, Option.some.inj hparts.2⟩
  constructor
  · intro h
    obtain ⟨map, hgenerated, haccepted⟩ := h.generated
    obtain ⟨hok, written, hport⟩ : bracketsOk c.toTables q.netloc = true ∧ ∃ written, q.port = some written := by
      have hparts := hgenerated
      simp only [generateVariantMap, hurl, Option.bind_eq_bind, Option.bind_some, Option.bind_eq_some_iff] at hparts
      obtain ⟨parts, hparts, written, hwritten, -⟩ := hparts
      obtain ⟨hok, rfl⟩ := hsplit parts hparts
      exact ⟨hok, written, hwritten⟩
    obtain ⟨clean, -, hmap⟩ : ∃ clean, (∃ pairs, clean = unsplit q.scheme q.netloc q.path (urlencode pairs)) ∧
        generateVariantMap c target language region canonicalUrl =
          (candidates c (String.ofList (urlunsplit q)) clean q written language region canonicalUrl).mapM
            (keepCandidate c (String.ofList (urlunsplit q))) := generateVariantMap_eq hq hok hurl hport
    rw [hmap] at hgenerated
    exact expandable_of_map hc hq hok hport hgenerated fun entry hentry url hurl => (haccepted entry hentry url hurl).1
  · intro h
    have hread := h
    obtain ⟨parts, written, hparts, -⟩ := hread
    exact expands_of_expandable hc hq (hsplit parts hparts).1 hurl h

theorem expands_iff_page : Expands plainCodecs "https://www.example.org:8443/a?q=1" "https://www.example.org:8443/a?q=1"
    (some "de-AT") (some "AT") (some "http://example.org/b") := by
  have hurl : normalizeUrl plainCodecs "https://www.example.org:8443/a?q=1" =
      some "https://www.example.org:8443/a?q=1" := by decide +kernel
  have hsplit : urlsplit plainCodecs.toTables "https://www.example.org:8443/a?q=1".toList =
      some ⟨"https".toList, "www.example.org:8443".toList, "/a".toList, "q=1".toList, []⟩ := by decide +kernel
  have hobserved : safeOptionalUrl plainCodecs (some "http://example.org/b") = some "http://example.org/b" := by
    decide +kernel
  have hother : urlsplit plainCodecs.toTables "http://example.org/b".toList =
      some ⟨"http".toList, "example.org".toList, "/b".toList, [], []⟩ := by decide +kernel
  refine (expands_iff plainCodecs plainCodecs_idna _ _ hurl _ _ _).mpr
    ⟨_, some 8443, hsplit, by decide +kernel, ?_, ?_, fun observed h => ?_⟩
  · exact ⟨by decide +kernel, by decide +kernel, by decide +kernel, by decide +kernel⟩
  · exact ⟨by decide +kernel, by decide +kernel, by decide +kernel, by decide +kernel⟩
  · cases hobserved.symm.trans h
    exact ⟨_, hother, .inr ⟨rfl, rfl⟩⟩

/-- A setting with one IPv6 address. -/
def addressCodecs : Codecs := {plainCodecs with isIPv6 := fun host => host == "2606:4700::1111".toList}

/-- **An IPv6 literal loses its brackets** under `www.`: the candidate is not accepted, and the
attempt to show it raises, so that nothing is expanded. -/
theorem address_without_brackets :
    normalizeUrl addressCodecs "https://[2606:4700::1111]/" = some "https://[2606:4700::1111]/" ∧
      (∃ map, generateVariantMap addressCodecs "https://[2606:4700::1111]/" none none none = some map ∧
        ("non_www_to_www", some "https://www.2606:4700::1111/") ∈ map) ∧
      normalizeUrl addressCodecs "https://www.2606:4700::1111/" = none ∧
      expandCandidates addressCodecs {target := "https://[2606:4700::1111]/"} none none = none ∧
      ¬Expands addressCodecs "https://[2606:4700::1111]/" "https://[2606:4700::1111]/" none none none := by
  have hexpanded : expandCandidates addressCodecs {target := "https://[2606:4700::1111]/"} none none = none := by
    decide +kernel
  refine ⟨by decide +kernel, ?_, by decide +kernel, hexpanded, fun h => ?_⟩
  · have hsome : (generateVariantMap addressCodecs "https://[2606:4700::1111]/" none none none).any
        (·.contains ("non_www_to_www", some "https://www.2606:4700::1111/")) = true := by decide +kernel
    obtain ⟨map, hmap, hmem⟩ := (Option.any_eq_true _ _).mp hsome
    exact ⟨map, hmap, by simpa using hmem⟩
  · have hsome := h.executed {target := "https://[2606:4700::1111]/"} rfl rfl
    rw [hexpanded] at hsome
    cases hsome

end Fetech.Variants
