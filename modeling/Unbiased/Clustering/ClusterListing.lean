/-
# The listing of the clusters

Clusters are printed twice. The first listing goes through a map from topics to articles, and
prints the articles of each with their keywords. On the way it fills a map from topics to
keywords, which the second listing goes through.

A topic without keywords is missing in the second listing. Apart from that the two maps hold
the same topics, each in an order of its own.
-/

import Unbiased.Clustering.ClusterAccess
import Unbiased.Math.Grouping

namespace Unbiased

open Unbiased.Math

namespace BUClustering

/-! ## What is printed -/

/-- A line. The two lines with the statistics of the threshold, which come before all of these,
are left out. -/
inductive Line where
  | topics (clustersNo mapSize : ℕ)
  | topic
  | title (text : Bytes)
  | key (keyword : Bytes)
  | gap
  | rule

def Line.title? : Line → Option Bytes
  | title text => some text
  | _ => none

def Line.key? : Line → Option Bytes
  | key keyword => some keyword
  | _ => none

/-- The lines so far, and the map for the second listing. -/
structure Listing where
  out : List Line
  topicsTermsMap : List (ℕ × List Bytes)

/-- The orders in which the hash maps list their entries. -/
structure MapOrders where
  arts : List (ℕ × List ℕ) → List (ℕ × List ℕ)
  terms : List (ℕ × List Bytes) → List (ℕ × List Bytes)

/-- One keyword of an article. -/
def listKey (vocab : Vocabulary) (topic : ℕ) (s : Listing) (kidx : ℕ) : Option Listing := do
  let keyword ← LSA.getWord vocab kidx
  some ⟨s.out ++ [.key keyword], pushBack topic keyword s.topicsTermsMap⟩

/-- One article of a topic. -/
def listArticle (vocab : Vocabulary) (articles : List ProcessedArticle)
    (docsKeywords : List (SortedSet ℕ)) (topic : ℕ) (s : Listing) (artIdx : ℕ) :
    Option Listing := do
  let article ← articles[artIdx]?
  let keywords ← docsKeywords[artIdx]?
  run (listKey vocab topic) { s with out := s.out ++ [.title article.metaData.title] }
    keywords.elems

/-- One topic. -/
def listTopic (vocab : Vocabulary) (articles : List ProcessedArticle)
    (docsKeywords : List (SortedSet ℕ)) (s : Listing) (topicArt : ℕ × List ℕ) :
    Option Listing := do
  let s ← run (listArticle vocab articles docsKeywords topicArt.1)
    { s with out := s.out ++ [.topic] } topicArt.2
  some { s with out := s.out ++ [.gap] }

/-- A topic of the second listing. -/
def termLines (topicTerms : ℕ × List Bytes) : List Line := .topic :: topicTerms.2.map .key

section

variable {R : Type} [LT R] [DecidableLT R]

/-- `create_clusters`, with what it prints. The number of clusters is what the library returned
with the labels. -/
def createClustersListing (ops : ClusterOps R) (orders : MapOrders) (clustersNo : ℕ)
    (vocab : Vocabulary) (lsa : LSA R) (articles : List ProcessedArticle) :
    Option (LSA R × List Line) := do
  let (lsa, artLabels, docsKeywords) ← clusterArticles ops vocab lsa articles
  let topicsArtsMap := groupsOf artLabels.zipIdx
  let s ← run (listTopic vocab articles docsKeywords)
    ⟨[.topics clustersNo topicsArtsMap.length], []⟩ (orders.arts topicsArtsMap)
  some (lsa, s.out ++ .rule :: (orders.terms s.topicsTermsMap).flatMap termLines)

end

/-! ## What the loops print -/

def articleLines (printed : PrintedArticle) : List Line :=
  .title printed.title :: printed.keys.map .key

/-- A topic of the first listing. -/
def topicLines (topic : ℕ × List PrintedArticle) : List Line :=
  .topic :: topic.2.flatMap articleLines ++ [.gap]

/-- The entry of a topic for the second listing, if it has keywords. -/
def termsEntry (topic : ℕ) (keys : List Bytes) : List (ℕ × List Bytes) :=
  if keys = [] then [] else [(topic, keys)]

def topicTerms (topic : ℕ × List PrintedArticle) : List (ℕ × List Bytes) :=
  termsEntry topic.1 (topic.2.flatMap PrintedArticle.keys)

variable {vocab : Vocabulary} {articles : List ProcessedArticle}
  {docsKeywords : List (SortedSet ℕ)} {topic : ℕ} {done : List (ℕ × List Bytes)}

/-- One more keyword of a topic whose entry is the last one. -/
theorem pushBack_termsEntry (htopic : topic ∉ done.map Prod.fst) (keys : List Bytes)
    (keyword : Bytes) :
    pushBack topic keyword (done ++ termsEntry topic keys) =
      done ++ termsEntry topic (keys ++ [keyword]) := by
  have hlast : termsEntry topic (keys ++ [keyword]) = [(topic, keys ++ [keyword])] :=
    if_neg (List.append_ne_nil_of_right_ne_nil _ (List.cons_ne_nil _ _))
  rw [hlast, termsEntry]
  split
  · rename_i hnone
    rw [hnone, List.append_nil, pushBack_of_notMem htopic, List.nil_append]
  · exact pushBack_last htopic keys

/-- The keywords of an article. -/
theorem run_listKey (htopic : topic ∉ done.map Prod.fst) (out : List Line) (before : List Bytes)
    (kidxs : List ℕ) :
    run (listKey vocab topic) ⟨out, done ++ termsEntry topic before⟩ kidxs =
      (kidxs.mapM (LSA.getWord vocab)).map fun keys =>
        ⟨out ++ keys.map .key, done ++ termsEntry topic (before ++ keys)⟩ := by
  have hrun := @run_eq_map_mapM _ _ _ (listKey vocab topic) (LSA.getWord vocab)
    (fun keys => ⟨out ++ keys.map .key, done ++ termsEntry topic (before ++ keys)⟩) kidxs
    fun _ kidx _ keys _ => by
      rw [listKey]
      cases LSA.getWord vocab kidx with
      | none => rfl
      | some keyword => simp [pushBack_termsEntry htopic]
  simpa using hrun

/-- An article is printed as in a listing of its topic alone. -/
theorem listArticle_eq (htopic : topic ∉ done.map Prod.fst) (out : List Line)
    (before : List Bytes) (artIdx : ℕ) :
    listArticle vocab articles docsKeywords topic ⟨out, done ++ termsEntry topic before⟩ artIdx =
      (printArticle vocab articles docsKeywords artIdx).map fun printed =>
        ⟨out ++ articleLines printed, done ++ termsEntry topic (before ++ printed.keys)⟩ := by
  rw [listArticle, printArticle]
  cases articles[artIdx]? with
  | none => rfl
  | some article =>
      cases docsKeywords[artIdx]? with
      | none => rfl
      | some keywords =>
          simp only [Option.bind_eq_bind, Option.bind_some]
          rw [run_listKey htopic]
          cases keywords.elems.mapM (LSA.getWord vocab) with
          | none => rfl
          | some keys => simp [articleLines]

/-- A topic that has no entry yet. -/
theorem listTopic_eq (htopic : topic ∉ done.map Prod.fst) (out : List Line) (arts : List ℕ) :
    listTopic vocab articles docsKeywords ⟨out, done⟩ (topic, arts) =
      (arts.mapM (printArticle vocab articles docsKeywords)).map fun printed =>
        ⟨out ++ topicLines (topic, printed), done ++ topicTerms (topic, printed)⟩ := by
  have hrun := @run_eq_map_mapM _ _ _ (listArticle vocab articles docsKeywords topic)
    (printArticle vocab articles docsKeywords)
    (fun printed => ⟨out ++ [.topic] ++ printed.flatMap articleLines,
      done ++ termsEntry topic (printed.flatMap PrintedArticle.keys)⟩) arts
    fun _ artIdx _ printed _ => by
      rw [listArticle_eq htopic]
      cases printArticle vocab articles docsKeywords artIdx with
      | none => rfl
      | some article => simp
  have hstart : termsEntry topic [] = [] := rfl
  simp only [List.flatMap_nil, List.append_nil, hstart] at hrun
  rw [listTopic, hrun]
  cases arts.mapM (printArticle vocab articles docsKeywords) with
  | none => rfl
  | some printed => simp [topicLines, topicTerms]

/-- The printed articles of a topic. -/
def printGroup (vocab : Vocabulary) (articles : List ProcessedArticle)
    (docsKeywords : List (SortedSet ℕ)) (group : ℕ × List ℕ) :
    Option (ℕ × List PrintedArticle) :=
  (group.2.mapM (printArticle vocab articles docsKeywords)).map (Prod.mk group.1)

variable {groups : List (ℕ × List ℕ)} {topics : List (ℕ × List PrintedArticle)}

/-- The printed topics are those of the groups. -/
theorem map_fst_of_printGroup
    (h : groups.mapM (printGroup vocab articles docsKeywords) = some topics) :
    topics.map Prod.fst = groups.map Prod.fst := by
  apply map_eq_map_of_forall₂ (mapM_eq_some_iff_forall₂.mp h)
  intro group printed hprint
  obtain ⟨arts, -, rfl⟩ := Option.map_eq_some_iff.mp hprint
  rfl

theorem mem_keys_topicTerms (h : topic ∈ (topics.flatMap topicTerms).map Prod.fst) :
    topic ∈ topics.map Prod.fst := by
  obtain ⟨entry, hentry, rfl⟩ := List.mem_map.mp h
  obtain ⟨printed, hprinted, hentry⟩ := List.mem_flatMap.mp hentry
  rw [topicTerms, termsEntry] at hentry
  split at hentry
  · cases hentry
  · obtain rfl := List.mem_singleton.mp hentry
    exact List.mem_map_of_mem hprinted

/-- The first listing, and the map that it fills. -/
theorem run_listTopic (hgroups : (groups.map Prod.fst).Nodup) (out : List Line) :
    run (listTopic vocab articles docsKeywords) ⟨out, []⟩ groups =
      (groups.mapM (printGroup vocab articles docsKeywords)).map fun topics =>
        ⟨out ++ topics.flatMap topicLines, topics.flatMap topicTerms⟩ := by
  have hrun := @run_eq_map_mapM _ _ _ (listTopic vocab articles docsKeywords)
    (printGroup vocab articles docsKeywords)
    (fun topics => ⟨out ++ topics.flatMap topicLines, topics.flatMap topicTerms⟩) groups
    fun first group hpre topics htopics => by
      have hkeys := (hpre.map Prod.fst).sublist.nodup hgroups
      rw [List.map_append, List.map_singleton, List.nodup_append] at hkeys
      have hnew : group.1 ∉ (topics.flatMap topicTerms).map Prod.fst := by
        intro hmem
        have hearlier := mem_keys_topicTerms hmem
        rw [map_fst_of_printGroup htopics] at hearlier
        exact hkeys.2.2 _ hearlier _ (List.mem_singleton_self _) rfl
      rw [listTopic_eq hnew, printGroup]
      cases group.2.mapM (printArticle vocab articles docsKeywords) with
      | none => rfl
      | some printed => simp
  simpa using hrun

/-! ## Articles and keywords of the listings -/

theorem title_of_printArticle {artIdx : ℕ} {printed : PrintedArticle}
    (h : printArticle vocab articles docsKeywords artIdx = some printed) :
    printed.artIdx = artIdx ∧
      articles[artIdx]?.map (fun article => article.metaData.title) = some printed.title := by
  obtain ⟨article, harticle, h⟩ := Option.bind_eq_some_iff.mp h
  obtain ⟨keywords, -, h⟩ := Option.bind_eq_some_iff.mp h
  obtain ⟨keys, -, h⟩ := Option.bind_eq_some_iff.mp h
  cases h
  exact ⟨rfl, by rw [harticle, Option.map_some]⟩

/-- The printed articles have the indices that they were printed for, and the titles there. -/
theorem titles_of_mapM {arts : List ℕ} {printed : List PrintedArticle}
    (h : arts.mapM (printArticle vocab articles docsKeywords) = some printed) :
    printed.map PrintedArticle.artIdx = arts ∧
      printed.map (fun article => some article.title) = arts.map fun artIdx =>
        articles[artIdx]?.map fun article => article.metaData.title := by
  have hprinted := mapM_eq_some_iff_forall₂.mp h
  constructor
  · rw [← List.map_id arts]
    exact map_eq_map_of_forall₂ hprinted fun _ _ hprint => (title_of_printArticle hprint).1
  · exact map_eq_map_of_forall₂ hprinted fun _ _ hprint =>
      (title_of_printArticle hprint).2.symm

/-- All articles of the first listing are those of the groups. -/
theorem artIdxs_of_printGroup
    (h : groups.mapM (printGroup vocab articles docsKeywords) = some topics) :
    ((topics.flatMap Prod.snd).map PrintedArticle.artIdx = groups.flatMap Prod.snd) ∧
      (topics.flatMap Prod.snd).map (fun article => some article.title) =
        (groups.flatMap Prod.snd).map fun artIdx =>
          articles[artIdx]?.map fun article => article.metaData.title := by
  have hprinted := mapM_eq_some_iff_forall₂.mp h
  rw [List.map_flatMap, List.map_flatMap, List.map_flatMap]
  constructor
  · apply flatMap_eq_flatMap_of_forall₂ hprinted
    intro group printed hprint
    obtain ⟨arts, harts, rfl⟩ := Option.map_eq_some_iff.mp hprint
    exact (titles_of_mapM harts).1
  · apply flatMap_eq_flatMap_of_forall₂ hprinted
    intro group printed hprint
    obtain ⟨arts, harts, rfl⟩ := Option.map_eq_some_iff.mp hprint
    exact (titles_of_mapM harts).2

/-- What is found in the first listing is found in the lines of its articles. -/
theorem filterMap_topicLines {f : Line → Option Bytes} (htopic : f .topic = none)
    (hgap : f .gap = none) (topics : List (ℕ × List PrintedArticle)) :
    (topics.flatMap topicLines).filterMap f =
      topics.flatMap fun topic => topic.2.flatMap fun printed =>
        (articleLines printed).filterMap f := by
  rw [List.filterMap_flatMap]
  congr 1
  funext topic
  rw [topicLines, List.cons_append, List.filterMap_cons_none htopic, List.filterMap_append,
    List.filterMap_cons_none hgap, List.filterMap_nil, List.append_nil, List.filterMap_flatMap]

theorem titles_keys (keys : List Bytes) :
    (keys.map Line.key).filterMap Line.title? = [] ∧
      (keys.map Line.key).filterMap Line.key? = keys := by
  rw [List.filterMap_map, List.filterMap_map]
  exact ⟨List.filterMap_eq_nil_iff.mpr fun _ _ => rfl, List.filterMap_some⟩

theorem filterMap_title_topicLines (topics : List (ℕ × List PrintedArticle)) :
    (topics.flatMap topicLines).filterMap Line.title? =
      (topics.flatMap Prod.snd).map PrintedArticle.title := by
  have htitle : ∀ printed : PrintedArticle,
      (articleLines printed).filterMap Line.title? = [printed.title] := by
    intro printed
    have hfirst : Line.title? (.title printed.title) = some printed.title := rfl
    rw [articleLines, List.filterMap_cons_some hfirst, (titles_keys printed.keys).1]
  rw [filterMap_topicLines rfl rfl, List.map_flatMap]
  simp only [htitle, List.map_eq_flatMap]

theorem filterMap_key_topicLines (topics : List (ℕ × List PrintedArticle)) :
    (topics.flatMap topicLines).filterMap Line.key? =
      topics.flatMap fun topic => topic.2.flatMap PrintedArticle.keys := by
  have hkey : ∀ printed : PrintedArticle,
      (articleLines printed).filterMap Line.key? = printed.keys := fun printed =>
    (List.filterMap_cons_none rfl).trans (titles_keys printed.keys).2
  rw [filterMap_topicLines rfl rfl]
  simp only [hkey]

theorem filterMap_termLines (terms : List (ℕ × List Bytes)) :
    (terms.flatMap termLines).filterMap Line.title? = [] ∧
      (terms.flatMap termLines).filterMap Line.key? = terms.flatMap Prod.snd := by
  have htitle : ∀ entry, (termLines entry).filterMap Line.title? = [] := fun entry =>
    (List.filterMap_cons_none rfl).trans (titles_keys entry.2).1
  have hkey : ∀ entry, (termLines entry).filterMap Line.key? = entry.2 := fun entry =>
    (List.filterMap_cons_none rfl).trans (titles_keys entry.2).2
  rw [List.filterMap_flatMap, List.filterMap_flatMap]
  simp only [htitle, hkey, and_true]
  exact List.flatMap_eq_nil_iff.mpr fun _ _ => rfl

/-- A topic without keywords brings none, so leaving it out loses nothing. -/
theorem flatMap_snd_topicTerms (topics : List (ℕ × List PrintedArticle)) :
    (topics.flatMap topicTerms).flatMap Prod.snd =
      topics.flatMap fun topic => topic.2.flatMap PrintedArticle.keys := by
  rw [List.flatMap_assoc]
  congr 1
  funext topic
  rw [topicTerms, termsEntry]
  split
  · rename_i hnone
    rw [hnone, List.flatMap_nil]
  · exact List.flatMap_singleton _ _

/-! ## The two listings -/

/-- The articles of a topic are those with its label, in order. -/
theorem valuesOf_zipIdx (labels : List ℕ) (topic : ℕ) :
    valuesOf labels.zipIdx topic =
      (List.range labels.length).filter fun idx => labels[idx]? = some topic := by
  induction labels using List.reverseRecOn with
  | nil => rfl
  | append_singleton labels label ih =>
      have hbefore : (List.range labels.length).filter
          (fun idx => (labels ++ [label])[idx]? = some topic) =
            (List.range labels.length).filter fun idx => labels[idx]? = some topic := by
        apply List.filter_congr
        intro idx hidx
        rw [List.getElem?_append_left (List.mem_range.mp hidx)]
      have hlast : (labels ++ [label])[labels.length]? = some label := by
        rw [List.getElem?_append_right le_rfl, Nat.sub_self]
        rfl
      rw [List.zipIdx_append, List.zipIdx_singleton, Nat.zero_add, valuesOf_concat, ih,
        List.length_append, List.length_singleton, List.range_succ, List.filter_append, hbefore,
        List.filter_singleton, hlast]
      by_cases htopic : topic = label
      · simp [htopic]
      · simp [htopic, Ne.symm htopic]

theorem mem_groupsOf_zipIdx {labels : List ℕ} {group : ℕ × List ℕ}
    (h : group ∈ groupsOf labels.zipIdx) :
    group.2 = (List.range labels.length).filter fun idx => labels[idx]? = some group.1 := by
  rw [groupsOf_eq] at h
  obtain ⟨topic, -, rfl⟩ := List.mem_map.mp h
  exact valuesOf_zipIdx labels topic

/-- Every index stands in one group. -/
theorem groupsOf_zipIdx_perm (labels : List ℕ) :
    ((groupsOf labels.zipIdx).flatMap Prod.snd).Perm (List.range labels.length) := by
  have hidx : labels.zipIdx.map Prod.snd = List.range labels.length := by
    rw [List.zipIdx_map_snd, List.range_eq_range']
  exact hidx ▸ groupsOf_perm labels.zipIdx

theorem mapM_of_printGroup (select : ℕ → List ℕ)
    (hselect : ∀ group ∈ groups, group.2 = select group.1)
    (h : groups.mapM (printGroup vocab articles docsKeywords) = some topics) :
    (groups.map Prod.fst).mapM (fun topic =>
      (select topic).mapM (printArticle vocab articles docsKeywords)) =
        some (topics.map Prod.snd) := by
  rw [mapM_eq_some_iff_forall₂, List.forall₂_map_left_iff, List.forall₂_map_right_iff]
  rw [mapM_eq_some_iff_forall₂] at h
  induction h with
  | nil => exact .nil
  | cons hprint _ ih =>
      obtain ⟨hgroup, hrest⟩ := List.forall_mem_cons.mp hselect
      obtain ⟨arts, harts, rfl⟩ := Option.map_eq_some_iff.mp hprint
      exact .cons (hgroup ▸ harts) (ih hrest)

/-- What two listings hold. -/
structure HoldsListings (articles : List ProcessedArticle) (clustersNo : ℕ)
    (topics : List (ℕ × List PrintedArticle)) (terms : List (ℕ × List Bytes))
    (out : List Line) : Prop where
  out_eq : out = (.topics clustersNo topics.length :: topics.flatMap topicLines) ++
    .rule :: terms.flatMap termLines
  /-- No topic is printed twice. -/
  topicsNodup : (topics.map Prod.fst).Nodup
  /-- Every article is printed once. -/
  articlesOnce : ((topics.flatMap Prod.snd).map PrintedArticle.artIdx).Perm
    (List.range articles.length)
  titles : (out.filterMap Line.title?).Perm (articles.map fun article => article.metaData.title)
  /-- The second listing has the topics with keywords. -/
  termsPerm : terms.Perm (topics.flatMap topicTerms)
  /-- Every keyword is printed as often in the second listing as in the first. -/
  keywords : ((terms.flatMap termLines).filterMap Line.key?).Perm
    ((topics.flatMap topicLines).filterMap Line.key?)

/-- The articles in the order of the first listing. -/
theorem titles_perm
    (h : groups.mapM (printGroup vocab articles docsKeywords) = some topics)
    (hall : (groups.flatMap Prod.snd).Perm (List.range articles.length)) :
    ((topics.flatMap Prod.snd).map PrintedArticle.title).Perm
      (articles.map fun article => article.metaData.title) := by
  have hread : (List.range articles.length).map (fun artIdx =>
      articles[artIdx]?.map fun article => article.metaData.title) =
        articles.map fun article => some article.metaData.title := by
    apply List.ext_getElem (by simp)
    intro idx _ hidx
    rw [List.length_map] at hidx
    simp [hidx]
  have hperm := hall.map fun artIdx =>
    articles[artIdx]?.map fun article => article.metaData.title
  rw [← (artIdxs_of_printGroup h).2, hread] at hperm
  simpa [List.filterMap_map, Function.comp_def] using hperm.filterMap id

/-- The listings, from the map of the articles and any order of that of the keywords. -/
theorem holdsListings_of_printGroup {clustersNo : ℕ} {terms : List (ℕ × List Bytes)}
    (h : groups.mapM (printGroup vocab articles docsKeywords) = some topics)
    (hnodup : (groups.map Prod.fst).Nodup)
    (hall : (groups.flatMap Prod.snd).Perm (List.range articles.length))
    (hterms : terms.Perm (topics.flatMap topicTerms)) :
    HoldsListings articles clustersNo topics terms
      ((.topics clustersNo topics.length :: topics.flatMap topicLines) ++
        .rule :: terms.flatMap termLines) where
  out_eq := rfl
  topicsNodup := map_fst_of_printGroup h ▸ hnodup
  articlesOnce := (artIdxs_of_printGroup h).1 ▸ hall
  titles := by
    have hheader : Line.title? (.topics clustersNo topics.length) = none := rfl
    have hrule : Line.title? .rule = none := rfl
    rw [List.cons_append, List.filterMap_cons_none hheader, List.filterMap_append,
      List.filterMap_cons_none hrule, (filterMap_termLines _).1, List.append_nil,
      filterMap_title_topicLines]
    exact titles_perm h hall
  termsPerm := hterms
  keywords := by
    rw [(filterMap_termLines _).2, filterMap_key_topicLines, ← flatMap_snd_topicTerms]
    exact hterms.flatMap_right Prod.snd

section

variable {R : Type} [LT R] [DecidableLT R] {ops : ClusterOps R} {orders : MapOrders}
  {clustersNo : ℕ} {before after : LSA R} {out : List Line}

/-- There is a label for each article. -/
theorem length_artLabels {artLabels : List ℕ} (h : clusterArticles ops vocab before articles =
    some (after, artLabels, docsKeywords)) : artLabels.length = articles.length := by
  obtain ⟨lsa, -, h⟩ := Option.bind_eq_some_iff.mp h
  obtain ⟨distMat, -, h⟩ := Option.bind_eq_some_iff.mp h
  obtain ⟨labels, hlabels, h⟩ := Option.bind_eq_some_iff.mp h
  obtain ⟨termsTh, -, h⟩ := Option.bind_eq_some_iff.mp h
  obtain ⟨keywords, -, h⟩ := Option.bind_eq_some_iff.mp h
  cases h
  rw [length_of_mapM hlabels, List.length_range]

/-- **What the two listings of a clustering hold**, in whatever orders the maps list their
entries. The first one has every article once, under the topic of its label. The second one
has the topics with keywords, each with the keywords of its articles. -/
theorem listings_of_createClusters
    (harts : ∀ entries, (orders.arts entries).Perm entries)
    (hterms : ∀ entries, (orders.terms entries).Perm entries)
    (h : createClustersListing ops orders clustersNo vocab before articles =
      some (after, out)) :
    ∃ topics terms, HoldsListings articles clustersNo topics terms out ∧
      createClustersChecked { ops with mapOrder := fun _ => topics.map Prod.fst } vocab before
        articles = some (after, topics.map Prod.snd) := by
  obtain ⟨⟨lsa, artLabels, docsKeywords⟩, hcluster, h⟩ := Option.bind_eq_some_iff.mp h
  obtain ⟨s, hs, h⟩ := Option.bind_eq_some_iff.mp h
  cases h
  have hlength := length_artLabels hcluster
  have hgroups := harts (groupsOf artLabels.zipIdx)
  have hnodup : ((orders.arts (groupsOf artLabels.zipIdx)).map Prod.fst).Nodup :=
    (hgroups.map Prod.fst).nodup_iff.mpr (nodup_keys_groupsOf _)
  rw [run_listTopic hnodup] at hs
  obtain ⟨topics, htopics, rfl⟩ := Option.map_eq_some_iff.mp hs
  have hkeys := map_fst_of_printGroup htopics
  have hsize : (groupsOf artLabels.zipIdx).length = topics.length := by
    rw [← hgroups.length_eq, ← List.length_map Prod.fst, ← hkeys, List.length_map]
  have hall : ((orders.arts (groupsOf artLabels.zipIdx)).flatMap Prod.snd).Perm
      (List.range articles.length) :=
    hlength ▸ (hgroups.flatMap_right Prod.snd).trans (groupsOf_zipIdx_perm artLabels)
  have hselect : ∀ group ∈ orders.arts (groupsOf artLabels.zipIdx),
      group.2 = (List.range articles.length).filter fun idx => artLabels[idx]? = some group.1 :=
    fun group hgroup => hlength ▸ mem_groupsOf_zipIdx (hgroups.mem_iff.mp hgroup)
  have hchecked := mapM_of_printGroup
    (fun topic => (List.range articles.length).filter fun idx => artLabels[idx]? = some topic)
    hselect htopics
  have hprepared : clusterArticles { ops with mapOrder := fun _ => topics.map Prod.fst } vocab
      before articles = some (after, artLabels, docsKeywords) := hcluster
  refine ⟨topics, orders.terms (topics.flatMap topicTerms), ?_, ?_⟩
  · rw [hsize]
    exact holdsListings_of_printGroup htopics hnodup hall (hterms _)
  · rw [createClustersChecked, hprepared]
    simp only [Option.bind_eq_bind, Option.bind_some, hkeys, hchecked]

end

/-! ## Fifty-one articles -/

/-- The fifty articles, and one more that mentions neither stem. -/
def fiftyOneArticles : List ProcessedArticle := fiftyArticles ++ [articleWithStems []]

/-- The decomposition of the one-row matrix of these articles. -/
def oneConceptOfAll (mat : Mat ℚ) : Mat ℚ × Mat ℚ × Mat ℚ :=
  (⟨mat.nr, mat.nc, fun row col => if row = col then 1 else 0⟩,
    ⟨mat.nc, mat.nc, fun row col => if row = 0 ∧ col = 0 then 1 / 50 else 0⟩,
    ⟨mat.nc, mat.nc, fun row col =>
      if row < 4 ∧ col < 4 then (if (row &&& col) = 1 ∨ (row &&& col) = 2 then -1 / 2 else 1 / 2)
      else if row = col then 1 else 0⟩)

/-- The last document has no weight in the first fifty concepts, so it is at no distance from
any other, and is merged with the first. -/
def fiftyOneArticlesOps : ClusterOps ℚ where
  svd := oneConceptOfAll
  distance := fun first second =>
    if first.all (· = 0) ∨ second.all (· = 0) then 0 else unitCosineDistance first second
  memory := fun _ _ => 0
  bottomUpCluster := fun distMat => (List.range distMat.nr).map (· % 50)
  stat := fun _ => 0
  toFloat := id
  literal := 11 / 100
  mapOrder := id

/-- The listings of these articles, if one map lists its entries in reverse. -/
theorem listings_of_createClusters_fiftyOneArticles :
    ∃ after out topics terms,
      createClustersListing fiftyOneArticlesOps ⟨id, List.reverse⟩ 50 twoStems LSA.fresh
        fiftyOneArticles = some (after, out) ∧
      HoldsListings fiftyOneArticles 50 topics terms out ∧
      createClustersChecked
        { fiftyOneArticlesOps with mapOrder := fun _ => topics.map Prod.fst } twoStems LSA.fresh
          fiftyOneArticles = some (after, topics.map Prod.snd) := by
  have hsome : (createClustersListing fiftyOneArticlesOps ⟨id, List.reverse⟩ 50 twoStems
      LSA.fresh fiftyOneArticles).isSome = true := by
    decide +kernel
  obtain ⟨⟨after, out⟩, hlisting⟩ := Option.isSome_iff_exists.mp hsome
  obtain ⟨topics, terms, hlistings, hchecked⟩ := listings_of_createClusters
    (fun _ => List.Perm.refl _) (fun entries => List.reverse_perm entries) hlisting
  exact ⟨after, out, topics, terms, hlisting, hlistings, hchecked⟩

end BUClustering

end Unbiased
