import Velo.Lib.Cache
import Velo.Strategy.DeltaHedger

/-! `strategy/orderbook_client/historical_feed.py`: the feed and the cache of its downloads. The
file system is a map from paths to the rows of CSV files. -/
namespace Velo.Strategy
open Fold

abbrev Text := List Char

/-- The finite floats, as Python writes them and reads them back. -/
class CsvFloat (φ : Type*) where
  value : φ → ℚ
  text : φ → Text
  parse : Text → Option φ
  parse_text : ∀ c, parse (text c) = some c

open CsvFloat

structure FeedRequest where
  ticker : Text
  start : Text
  stop : Text
  interval : Text
  deriving DecidableEq

abbrev Row := List Text

/-- What is in a file, if there is one. -/
abbrev Files := Text → Option (List Row)

def tickSize : ℚ := 1 / 4

/-- `str.replace`, of one character by another. -/
def replaceChar (old new : Char) (t : Text) : Text := t.map fun c => if c = old then new else c

/-- `os.path.join` of two parts. -/
def joinPath (a b : Text) : Text :=
  if b.head? = some '/' then b
  else if a = [] ∨ a.getLast? = some '/' then a ++ b
  else a ++ '/' :: b

def safeTicker (ticker : Text) : Text := replaceChar '/' '_' (replaceChar '=' '_' ticker)

def FeedRequest.fileName (r : FeedRequest) : Text :=
  safeTicker r.ticker ++ '_' :: (r.interval ++ '_' :: (r.start ++ '_' :: (r.stop ++
    ['.', 'c', 's', 'v'])))

def cachePath (cacheDir : Text) (r : FeedRequest) : Text := joinPath cacheDir r.fileName

def closeColumn : Text := ['c', 'l', 'o', 's', 'e']

section Float

variable {φ : Type*} [CsvFloat φ]

def priceToTicks (price : φ) : ℤ := roundHalfEven (value price / tickSize)

/-- What `csv.writer` has written when it is done. -/
def cacheRows (closes : List φ) : List Row := [closeColumn] :: closes.map fun c => [text c]

end Float

/-- `csv.DictReader`: the first row names the columns, and empty rows are skipped. -/
def dictRows : List Row → List (List (Text × Text))
  | [] => []
  | fieldnames :: rows => (rows.filter (· ≠ [])).map fieldnames.zip

section Feed

variable (φ : Type*) [CsvFloat φ]

/-- A row without a close, or with one that is not a number, is an error. -/
def readPrice (row : List (Text × Text)) : Option ℤ :=
  ((row.lookup closeColumn).bind fun t => (parse t : Option φ)).map priceToTicks

def readPrices (rows : List Row) : Option (List ℤ) := (dictRows rows).mapM (readPrice φ)

variable {φ}

/-- The prices, and the files as they are then. -/
def loadOrDownload (downloader : FeedRequest → List φ) (cacheDir : Text) (r : FeedRequest)
    (files : Files) : Option (List ℤ) × Files :=
  let path := cachePath cacheDir r
  let files :=
    if files path = none then Function.update files path (some (cacheRows (downloader r)))
    else files
  ((files path).bind (readPrices φ), files)

end Feed

structure HistoricalPriceFeed where
  prices : List ℤ
  index : ℕ
  deriving DecidableEq

namespace HistoricalPriceFeed

def init {φ : Type*} [CsvFloat φ] (downloader : FeedRequest → List φ) (cacheDir : Text)
    (r : FeedRequest) (files : Files) : Option HistoricalPriceFeed × Files :=
  let (prices, files) := loadOrDownload downloader cacheDir r files
  (prices.map fun prices => ⟨prices, 0⟩, files)

/-- No price is left: `StopIteration`. -/
def nextPrice (feed : HistoricalPriceFeed) : Option (ℤ × HistoricalPriceFeed) :=
  (feed.prices[feed.index]?).map fun price => (price, { feed with index := feed.index + 1 })

/-- The prices that the feed gives until it is exhausted. -/
inductive Gives : HistoricalPriceFeed → List ℤ → Prop
  | exhausted {feed} (h : feed.nextPrice = none) : Gives feed []
  | next {feed price rest prices} (h : feed.nextPrice = some (price, rest))
      (hrest : Gives rest prices) : Gives feed (price :: prices)

theorem gives_drop (prices : List ℤ) (index : ℕ) : Gives ⟨prices, index⟩ (prices.drop index) := by
  by_cases h : index < prices.length
  · rw [List.drop_eq_getElem_cons h]
    refine .next ?_ (gives_drop prices (index + 1))
    rw [nextPrice, List.getElem?_eq_getElem h]
    rfl
  · rw [not_lt] at h
    rw [List.drop_eq_nil_of_le h]
    refine .exhausted ?_
    rw [nextPrice, List.getElem?_eq_none h]
    rfl
termination_by prices.length - index

theorem Gives.unique {feed : HistoricalPriceFeed} {l m : List ℤ} (hl : feed.Gives l)
    (hm : feed.Gives m) : l = m := by
  induction hl generalizing m with
  | exhausted h =>
    cases hm with
    | exhausted => rfl
    | next h' => rw [h] at h'; cases h'
  | next h _ ih =>
    cases hm with
    | exhausted h' => rw [h] at h'; cases h'
    | next h' hrest =>
      rw [h, Option.some.injEq, Prod.mk.injEq] at h'
      obtain ⟨rfl, rfl⟩ := h'
      rw [ih hrest]

end HistoricalPriceFeed

section Path

variable {old new : Char} {t a b c d : Text} {r r' : FeedRequest}

theorem not_mem_replaceChar (h : new ≠ old) (t : Text) : old ∉ replaceChar old new t := by
  intro hmem
  obtain ⟨c, -, hc⟩ := List.mem_map.mp hmem
  split at hc
  · exact h hc
  · contradiction

theorem fileName_head (r : FeedRequest) : r.fileName.head? ≠ some '/' := by
  have hslash : '/' ∉ safeTicker r.ticker := not_mem_replaceChar (by decide) _
  rw [FeedRequest.fileName]
  cases hsafe : safeTicker r.ticker with
  | nil => exact fun hc => absurd (Option.some.inj hc) (by decide)
  | cons c safe =>
    intro hc
    apply hslash
    rw [hsafe, ← Option.some.inj hc]
    exact List.mem_cons_self

theorem cachePath_eq_iff {cacheDir : Text} :
    cachePath cacheDir r = cachePath cacheDir r' ↔ r.fileName = r'.fileName := by
  rw [cachePath, cachePath, joinPath, joinPath, if_neg (fileName_head r), if_neg (fileName_head r')]
  split
  · exact List.append_right_inj _
  · rw [List.append_right_inj, List.cons.injEq]
    exact and_iff_right rfl

/-- Two texts that are cut at their last separator. -/
theorem append_cons_inj {x : Char} (hb : x ∉ b) (hd : x ∉ d) (h : a ++ x :: b = c ++ x :: d) :
    a = c ∧ b = d := by
  rw [List.append_eq_append_iff] at h
  rcases h with ⟨e, rfl, he⟩ | ⟨e, rfl, he⟩
  · cases e with
    | nil => exact ⟨(List.append_nil a).symm, (List.cons.inj he).2⟩
    | cons y e =>
      rw [List.cons_append, List.cons.injEq] at he
      rw [he.2] at hb
      exact absurd (List.mem_append_right e List.mem_cons_self) hb
  · cases e with
    | nil => exact ⟨List.append_nil c, (List.cons.inj he).2.symm⟩
    | cons y e =>
      rw [List.cons_append, List.cons.injEq] at he
      rw [he.2] at hd
      exact absurd (List.mem_append_right e List.mem_cons_self) hd

/-- No underscore in what the file name is made of, and no character but one that becomes one. -/
structure FeedRequest.Plain (r : FeedRequest) : Prop where
  ticker : '_' ∉ r.ticker ∧ '/' ∉ r.ticker
  start : '_' ∉ r.start
  stop : '_' ∉ r.stop
  interval : '_' ∉ r.interval

theorem replaceChar_of_not_mem (h : old ∉ t) : replaceChar old new t = t := by
  rw [replaceChar]
  conv_rhs => rw [← List.map_id t]
  refine List.map_congr_left fun c hc => if_neg ?_
  rintro rfl
  exact h hc

theorem replaceChar_replaceChar (old : Char) (h : new ∉ t) :
    replaceChar new old (replaceChar old new t) = t := by
  rw [replaceChar, replaceChar, List.map_map]
  conv_rhs => rw [← List.map_id t]
  refine List.map_congr_left fun c hc => ?_
  have hne : c ≠ new := by
    rintro rfl
    exact h hc
  by_cases hold : c = old
  · simp [hold]
  · simp [hold, hne]

theorem FeedRequest.Plain.safeTicker_inj (h : r.Plain) (h' : r'.Plain)
    (heq : safeTicker r.ticker = safeTicker r'.ticker) : r.ticker = r'.ticker := by
  have hslash : ∀ {r : FeedRequest}, r.Plain →
      safeTicker r.ticker = replaceChar '=' '_' r.ticker := by
    intro r h
    apply replaceChar_of_not_mem
    intro hmem
    obtain ⟨c, hc, hslash⟩ := List.mem_map.mp hmem
    split at hslash
    · exact absurd hslash (by decide)
    · rw [hslash] at hc
      exact h.ticker.2 hc
  rw [hslash h, hslash h'] at heq
  rw [← replaceChar_replaceChar '=' h.ticker.1, heq, replaceChar_replaceChar '=' h'.ticker.1]

/-- Such requests have the same file name only if they are the same. -/
theorem FeedRequest.fileName_injOn : Set.InjOn FeedRequest.fileName {r | r.Plain} := by
  intro r h r' h' heq
  have hcsv : ∀ {t : Text}, '_' ∉ t → '_' ∉ t ++ ['.', 'c', 's', 'v'] := by
    intro t ht hmem
    rcases List.mem_append.mp hmem with hmem | hmem
    · exact ht hmem
    · exact absurd hmem (by decide)
  have hregroup : ∀ r : FeedRequest, r.fileName = ((safeTicker r.ticker ++ '_' :: r.interval) ++
      '_' :: r.start) ++ '_' :: (r.stop ++ ['.', 'c', 's', 'v']) := by
    intro r
    simp only [FeedRequest.fileName, List.append_assoc, List.cons_append]
  rw [hregroup, hregroup] at heq
  obtain ⟨hrest, hstop⟩ := append_cons_inj (hcsv h.stop) (hcsv h'.stop) heq
  obtain ⟨hrest, hstart⟩ := append_cons_inj h.start h'.start hrest
  obtain ⟨hticker, hinterval⟩ := append_cons_inj h.interval h'.interval hrest
  rw [FeedRequest.mk.injEq]
  exact ⟨h.safeTicker_inj h' hticker, hstart, List.append_cancel_right hstop, hinterval⟩

end Path

section Cached

variable {φ : Type*} [CsvFloat φ] {downloader : FeedRequest → List φ} {cacheDir : Text}
  {r r' : FeedRequest} {files : Files}

theorem readPrice_text (c : φ) :
    readPrice φ ([closeColumn].zip [text c]) = some (priceToTicks c) := by
  change ((some (text c)).bind fun t => (parse t : Option φ)).map priceToTicks = _
  rw [Option.bind_some, parse_text, Option.map_some]

theorem readPrices_header (closes : List φ) :
    readPrices φ ([closeColumn] :: closes.map fun c => [text c]) =
      some (closes.map priceToTicks) := by
  have hrows : (closes.map fun c => [text c]).filter (· ≠ []) = closes.map fun c => [text c] := by
    apply List.filter_eq_self.mpr
    intro row hrow
    obtain ⟨c, -, rfl⟩ := List.mem_map.mp hrow
    rfl
  rw [readPrices, dictRows, hrows, List.mapM_map, List.mapM_map]
  change (closes.mapM fun c => readPrice φ ([closeColumn].zip [text c])) = _
  simp only [readPrice_text]
  exact List.mapM_pure

theorem readPrices_take (closes : List φ) (k : ℕ) :
    readPrices φ ((cacheRows closes).take k) = some ((closes.take (k - 1)).map priceToTicks) := by
  cases k with
  | zero => rfl
  | succ k =>
    rw [cacheRows, List.take_succ_cons, ← List.map_take]
    exact readPrices_header _

theorem readPrices_cacheRows (closes : List φ) :
    readPrices φ (cacheRows closes) = some (closes.map priceToTicks) :=
  readPrices_header closes

theorem loadOrDownload_missing (h : files (cachePath cacheDir r) = none) :
    loadOrDownload downloader cacheDir r files =
      (some ((downloader r).map priceToTicks),
        Function.update files (cachePath cacheDir r) (some (cacheRows (downloader r)))) := by
  rw [loadOrDownload, if_pos h, Function.update_self, Option.bind_some, readPrices_cacheRows]

theorem loadOrDownload_cached {rows : List Row} (h : files (cachePath cacheDir r) = some rows) :
    loadOrDownload downloader cacheDir r files = (readPrices φ rows, files) := by
  rw [loadOrDownload, if_neg (by rw [h]; exact nofun), h, Option.bind_some]

end Cached

/-- The files, and for each the request whose download is in it. -/
structure FeedCache where
  files : Files
  writer : Text → Option FeedRequest

namespace FeedCache

def empty : FeedCache := ⟨fun _ => none, fun _ => none⟩

variable {φ : Type*} [CsvFloat φ]

def construct (downloader : FeedRequest → List φ) (cacheDir : Text) (s : FeedCache)
    (r : FeedRequest) : FeedCache where
  files := (HistoricalPriceFeed.init downloader cacheDir r s.files).2
  writer := Cache.fill (cachePath cacheDir) s.writer r

/-- The feed gives what the downloader has for its own request, and reads a file that is its own. -/
def ReadsOwn (downloader : FeedRequest → List φ) (cacheDir : Text) (s : FeedCache)
    (r : FeedRequest) : Prop :=
  (∃ feed, (HistoricalPriceFeed.init downloader cacheDir r s.files).1 = some feed ∧
    feed.Gives ((downloader r).map priceToTicks)) ∧
  (s.construct downloader cacheDir r).writer (cachePath cacheDir r) = some r

/-- Every file is the whole download of the one that wrote it. -/
def Complete (downloader : FeedRequest → List φ) (s : FeedCache) : Prop :=
  ∀ p, s.files p = (s.writer p).map fun r => cacheRows (downloader r)

variable {downloader : FeedRequest → List φ} {cacheDir : Text} {s : FeedCache} {r : FeedRequest}
  {requests : List FeedRequest}

/-- What is read is the download of the one who filled the key, and that is what stays. -/
theorem Complete.init (h : s.Complete downloader) (r : FeedRequest) :
    HistoricalPriceFeed.init downloader cacheDir r s.files =
      (some ⟨(downloader ((s.writer (cachePath cacheDir r)).getD r)).map priceToTicks, 0⟩,
        fun p => (Cache.fill (cachePath cacheDir) s.writer r p).map
          fun r => cacheRows (downloader r)) := by
  have hfile := h (cachePath cacheDir r)
  rw [HistoricalPriceFeed.init]
  cases hwriter : s.writer (cachePath cacheDir r) with
  | none =>
    rw [hwriter] at hfile
    rw [loadOrDownload_missing hfile, Prod.mk.injEq]
    refine ⟨rfl, funext fun p => ?_⟩
    by_cases hp : p = cachePath cacheDir r
    · rw [hp, Function.update_self, Cache.fill_key, hwriter]
      rfl
    · rw [Function.update_of_ne hp, Cache.fill_of_ne hp, h p]
  | some w =>
    rw [hwriter] at hfile
    rw [loadOrDownload_cached hfile, readPrices_cacheRows, Prod.mk.injEq]
    refine ⟨rfl, funext fun p => ?_⟩
    by_cases hp : p = cachePath cacheDir r
    · rw [hp, Cache.fill_of_some hwriter, hfile]
    · rw [Cache.fill_of_ne hp, h p]

theorem Complete.construct (h : s.Complete downloader) (r : FeedRequest) :
    (s.construct downloader cacheDir r).Complete downloader := by
  intro p
  rw [FeedCache.construct, h.init]

theorem Complete.readsOwn_iff (h : s.Complete downloader) :
    s.ReadsOwn downloader cacheDir r ↔
      Cache.fill (cachePath cacheDir) s.writer r (cachePath cacheDir r) = some r := by
  constructor
  · exact And.right
  · intro hown
    refine ⟨⟨_, congrArg Prod.fst (h.init r), ?_⟩, hown⟩
    rw [Cache.fill_key, Option.some.injEq] at hown
    rw [hown]
    exact HistoricalPriceFeed.gives_drop _ 0

theorem Complete.throughout_iff (h : s.Complete downloader) :
    Throughout (FeedCache.construct downloader cacheDir) (ReadsOwn downloader cacheDir) s
        requests ↔
      Throughout (Cache.fill (cachePath cacheDir))
        (fun s r => Cache.fill (cachePath cacheDir) s r (cachePath cacheDir r) = some r)
        s.writer requests := by
  induction requests generalizing s with
  | nil => exact Iff.rfl
  | cons r requests ih => exact and_congr h.readsOwn_iff (ih (h.construct r))

/-- For every sequence of constructions from an empty cache: each feed gives the download of its
own request, from a file that such a request has written, exactly if no two different requests have
the same file name. -/
theorem reads_own_iff (downloader : FeedRequest → List φ) (cacheDir : Text)
    (requests : List FeedRequest) :
    Throughout (construct downloader cacheDir) (ReadsOwn downloader cacheDir) empty requests ↔
      Set.InjOn FeedRequest.fileName {r | r ∈ requests} := by
  have hempty : empty.Complete downloader := fun _ => rfl
  rw [hempty.throughout_iff, empty, Cache.throughout_fill_iff]
  constructor
  · exact fun h r hr r' hr' hname => h hr hr' (cachePath_eq_iff.mpr hname)
  · exact fun h r hr r' hr' hpath => h hr hr' (cachePath_eq_iff.mp hpath)

end FeedCache

/-- Two floats as Python writes them, for runs on fixed inputs. -/
@[reducible] def zeroOne : CsvFloat Bool where
  value b := if b then 1 else 0
  text b := if b then ['1', '.', '0'] else ['0', '.', '0']
  parse t :=
    if t = ['1', '.', '0'] then some true
    else if t = ['0', '.', '0'] then some false
    else none
  parse_text := by decide

/-- `ES=F` is cached where `ES_F` looks for its own prices. -/
theorem FeedCache.not_reads_own :
    letI := zeroOne
    let downloader : FeedRequest → List Bool := fun r => [decide ('=' ∈ r.ticker)]
    let cacheDir := ['d', 'a', 't', 'a']
    ¬ Throughout (construct downloader cacheDir) (ReadsOwn downloader cacheDir) empty
      [⟨['E', 'S', '=', 'F'], ['1'], ['2'], ['1', 'd']⟩,
        ⟨['E', 'S', '_', 'F'], ['1'], ['2'], ['1', 'd']⟩] := by
  intro downloader cacheDir h
  obtain ⟨feed, hinit, hgives⟩ := h.2.1.1
  have hfeed : some ⟨[4], 0⟩ = some feed := by
    rw [← hinit]
    decide +kernel
  rw [← Option.some.inj hfeed] at hgives
  have hprices := hgives.unique (HistoricalPriceFeed.gives_drop [4] 0)
  revert hprices
  decide +kernel

/-- Where the first construction for a request fails: before the file is opened, as when the
download fails, or when some of its lines have been written. -/
inductive Failure
  | beforeOpen
  | writing (lines : ℕ)

section Failed

variable {φ : Type*} [CsvFloat φ]

/-- What the construction that fails leaves behind. -/
def failedFiles (downloader : FeedRequest → List φ) (cacheDir : Text) (r : FeedRequest)
    (files : Files) : Failure → Files
  | .beforeOpen => files
  | .writing lines =>
    Function.update files (cachePath cacheDir r) (some ((cacheRows (downloader r)).take lines))

/-- The next construction downloads, or has all the prices that there were to download. -/
def Recovers (downloader again : FeedRequest → List φ) (cacheDir : Text) (r : FeedRequest)
    (files : Files) : Prop :=
  files (cachePath cacheDir r) = none ∨
    (loadOrDownload again cacheDir r files).1 = some ((downloader r).map priceToTicks)

/-- What has been written is complete, but perhaps for a header that nothing follows. -/
def Failure.Harmless (closes : List φ) : Failure → Prop
  | .beforeOpen => True
  | .writing lines => closes = [] ∨ closes.length < lines

/-- For every request without a file and every failure: the next construction recovers exactly if
the file had not been opened or lacks no row. -/
theorem recovers_iff (downloader again : FeedRequest → List φ) (cacheDir : Text) (r : FeedRequest)
    (files : Files) (failure : Failure) (hmissing : files (cachePath cacheDir r) = none) :
    Recovers downloader again cacheDir r (failedFiles downloader cacheDir r files failure) ↔
      failure.Harmless (downloader r) := by
  cases failure with
  | beforeOpen => exact iff_of_true (Or.inl hmissing) trivial
  | writing lines =>
    have hpart : failedFiles downloader cacheDir r files (.writing lines) (cachePath cacheDir r) =
        some ((cacheRows (downloader r)).take lines) :=
      Function.update_self _ _ _
    rw [Recovers, hpart, loadOrDownload_cached hpart, readPrices_take, Failure.Harmless,
      or_iff_right nofun, Option.some.injEq, ← List.length_eq_zero_iff]
    constructor
    · intro h
      have hlength := congrArg List.length h
      rw [List.length_map, List.length_map, List.length_take] at hlength
      omega
    · intro h
      rw [List.take_of_length_le (by omega)]

/-- The download failed: the next construction downloads. -/
theorem recovers_of_failed_download :
    letI := zeroOne
    let r : FeedRequest := ⟨['E', 'S', '=', 'F'], ['1'], ['2'], ['1', 'd']⟩
    let cacheDir := ['d', 'a', 't', 'a']
    Recovers (fun _ => [true, false]) (fun _ => [true, false]) cacheDir r
      (failedFiles (fun _ => [true, false]) cacheDir r (fun _ => none) .beforeOpen) :=
  letI := zeroOne
  (recovers_iff (fun _ => [true, false]) (fun _ => [true, false]) ['d', 'a', 't', 'a']
    ⟨['E', 'S', '=', 'F'], ['1'], ['2'], ['1', 'd']⟩ (fun _ => none) .beforeOpen rfl).mpr trivial

/-- The header and one row of two have been written: one price is read, without a download. -/
theorem not_recovers_of_half :
    letI := zeroOne
    let r : FeedRequest := ⟨['E', 'S', '=', 'F'], ['1'], ['2'], ['1', 'd']⟩
    let cacheDir := ['d', 'a', 't', 'a']
    ¬ Recovers (fun _ => [true, false]) (fun _ => [true, false]) cacheDir r
      (failedFiles (fun _ => [true, false]) cacheDir r (fun _ => none) (.writing 2)) := by
  intro r cacheDir h
  rcases h with h | h
  · cases h
  · revert h
    decide +kernel

end Failed

end Velo.Strategy
