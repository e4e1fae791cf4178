import DocDelta.Proofs.Bson.Readback
import DocDelta.Proofs.Document.Copies

/-! What update documents are stored as, and what comes back.

`Storable` says of which documents there is a stored form: those made of storable scalars, lists
and maps from distinct texts that a NUL can end. `Stores` says what each part of such a document is
afterwards: the same, but instants are brought to the millisecond and to UTC, dates become the
midnights before them, times of day their texts, durations their seconds, and decimals decimals of
34 digits. All of that is native to the notation, so it comes back as it was stored. -/
namespace DocDelta.Bson
open Heap Number Calendar
variable {h : Heap}

/-! ### What a stored value shows -/

namespace Node

/-- A whole number, however wide. -/
def whole? : Node → Option Int
  | .int32 n | .int64 n => some n
  | _ => none

/-- An instant, in UTC. -/
def datetime? : Node → Option DateTime
  | .datetime millis => DateTime.ofEpoch? (1000 * millis) (some 0)
  | _ => none

def decimal? : Node → Option Decimal
  | .decimal w => (Decimal128.ofWord w).toOption
  | _ => none

end Node

/-! ### Scalars -/

/-- A scalar with a stored form: a whole number of 64 bits, a double, a decimal of 34 digits, a
date, a local instant or one in UTC, and any other plain scalar. -/
def StorableScalar : Object Value → Prop
  | .nil | .bool _ | .text .. | .bytes .. | .time _ | .duration _ => True
  | .int _ n => -2 ^ 63 ≤ n ∧ n < 2 ^ 63
  | .float _ x => x.Proper
  | .decimal d => Decimal128.Fits d
  | .date d => d.Proper
  | .datetime x => x.Proper ∧ x.time.offset.getD 0 = 0
  | _ => False

instance (o : Object Value) : Decidable (StorableScalar o) := by
  cases o
  all_goals
    unfold StorableScalar
    infer_instance

/-- A scalar and what is stored of it. -/
inductive StoresScalar : Object Value → Node → Prop
  | nil : StoresScalar .nil .null
  | bool (b : Bool) : StoresScalar (.bool b) (.bool b)
  | int (cls : Option Subclass) {n : Int} {x : Node} (hx : x.whole? = some n) :
      StoresScalar (.int cls n) x
  | float (cls : Option Subclass) (x : Binary64) : StoresScalar (.float cls x) (.double x)
  | decimal {d : Decimal} {x : Node} (hx : x.decimal? = some (Decimal128.clamp d)) :
      StoresScalar (.decimal d) x
  | text (cls : Option Subclass) (s : String) : StoresScalar (.text cls s) (.text s)
  | bytes (cls : Option Subclass) (bs : List UInt8) : StoresScalar (.bytes cls bs) (.bytes bs)
  | datetime {t : DateTime} {x : Node} (hx : x.datetime? = some (t.inMillis.withOffset (some 0))) :
      StoresScalar (.datetime t) x
  | date {d : Date} {x : Node}
      (hx : x.datetime? = some (DateTime.withOffset (some 0) ⟨d, Time.midnight⟩)) :
      StoresScalar (.date d) x
  | time (t : Time) : StoresScalar (.time t) (.text t.text)
  | duration (d : Duration) : StoresScalar (.duration d) (.double d.totalSeconds)

theorem ofInt?_stores {n : Int} (hl : -2 ^ 63 ≤ n) (hu : n < 2 ^ 63) :
    ∃ x, Node.ofInt? n = .ok x ∧ x.whole? = some n ∧ Native x := by
  rw [Node.ofInt?]
  split
  · exact ⟨_, rfl, rfl, .int32 (by omega) (by omega)⟩
  · rw [if_pos (by omega)]
    exact ⟨_, rfl, rfl, .int64 hl hu⟩

theorem ofDateTime?_stores {t : DateTime} (ht : t.Proper) (ho : t.time.offset.getD 0 = 0) :
    ∃ x, Node.ofDateTime? t = .ok x ∧ x.datetime? = some (t.inMillis.withOffset (some 0)) ∧
      Native x := by
  have hinstant : t.instant = t.clock := by
    rw [DateTime.instant, ho]
    omega
  have hmillis := DateTime.ofEpoch?_millis ht ho
  refine ⟨.datetime (t.sinceEpoch / 1000), ?_, hmillis _, .datetime ?_⟩
  · rw [Node.ofDateTime?, hinstant, if_pos (DateTime.inRange_clock ht)]
  · rw [hmillis]
    rfl

theorem ofDecimal?_stores {d : Decimal} (hd : Decimal128.Fits d) :
    ∃ x, Node.ofDecimal? d = .ok x ∧ x.decimal? = some (Decimal128.clamp d) ∧ Native x := by
  obtain ⟨w, hw, hlt, hback⟩ := Decimal128.ofWord_toWord hd
  refine ⟨.decimal w, ?_, ?_, .decimal hlt⟩
  · rw [Node.ofDecimal?, hw]
  · rw [Node.decimal?, hback]
    rfl

/-- **Every storable scalar is stored as it should be.** -/
theorem ofValueWithin_scalar {v : Value} (hv : StorableScalar (h.view v)) (n : Nat) :
    ∃ x, Node.ofValueWithin h (n + 1) v = .ok x ∧ StoresScalar (h.view v) x ∧ Native x := by
  rw [Node.ofValueWithin, Heap.whole?]
  generalize h.view v = o at hv
  cases o with
  | nil => exact ⟨_, rfl, .nil, .null⟩
  | bool b => exact ⟨_, rfl, .bool b, .bool b⟩
  | int c n =>
    obtain ⟨x, hx, hwhole, hnative⟩ := ofInt?_stores hv.1 hv.2
    exact ⟨x, hx, .int c hwhole, hnative⟩
  | float c x => exact ⟨_, rfl, .float c x, .double hv⟩
  | decimal d =>
    obtain ⟨x, hx, hback, hnative⟩ := ofDecimal?_stores hv
    exact ⟨x, hx, .decimal hback, hnative⟩
  | text c s => exact ⟨_, rfl, .text c s, .text s⟩
  | bytes c bs => exact ⟨_, rfl, .bytes c bs, .bytes bs⟩
  | date d =>
    have hclock : Time.midnight.Proper := by decide
    have hmidnight : DateTime.Proper ⟨d, Time.midnight⟩ := ⟨hv, hclock⟩
    have hwhole : DateTime.inMillis ⟨d, Time.midnight⟩ = ⟨d, Time.midnight⟩ := by
      simp only [DateTime.inMillis, Time.midnight, Nat.zero_div, Nat.zero_mul]
    obtain ⟨x, hx, hback, hnative⟩ := ofDateTime?_stores hmidnight rfl
    rw [hwhole] at hback
    exact ⟨x, hx, .date hback, hnative⟩
  | time t => exact ⟨_, rfl, .time t, .text _⟩
  | datetime t =>
    obtain ⟨x, hx, hback, hnative⟩ := ofDateTime?_stores hv.1 hv.2
    exact ⟨x, hx, .datetime hback, hnative⟩
  | duration d => exact ⟨_, rfl, .duration d, .double (Binary64.proper_ofRatio ..)⟩
  | _ => cases hv

/-! ### Documents -/

/-- A document with a stored form, down to its scalars. -/
inductive Storable (h : Heap) : Value → Prop
  | scalar {v : Value} (hv : StorableScalar (h.view v)) : Storable h v
  | list {xs : List Value} (hx : ∀ x ∈ xs, Storable h x) : Storable h (.list xs)
  | map {es : List (Value × Value)}
      (hk : ∀ e ∈ es, ∃ s, (h.view e.1).text? = some s ∧ '\x00' ∉ s.toList)
      (hd : (es.map fun e => (h.view e.1).text?).Nodup) (he : ∀ e ∈ es, Storable h e.2) :
      Storable h (.map es)

/-- A map is storable if its entries are, under distinct names that a NUL can end. -/
theorem storable_map {es : List (Value × Value)} (names : List String)
    (hk : es.map (fun e => (h.view e.1).text?) = names.map some) (hd : names.Nodup)
    (hs : ∀ s ∈ names, '\x00' ∉ s.toList) (he : ∀ e ∈ es, Storable h e.2) :
    Storable h (.map es) := by
  refine .map (fun e hm => ?_) ?_ he
  · have hmem := List.mem_map_of_mem (f := fun e => (h.view e.1).text?) hm
    rw [hk] at hmem
    obtain ⟨s, hmem, hs'⟩ := List.mem_map.mp hmem
    exact ⟨s, hs'.symm, hs s hmem⟩
  · rw [hk]
    exact hd.map (Option.some_injective String)

/-- A document and what is stored of it: items and entries in their order, each under its name. -/
inductive Stores (h : Heap) : Value → Node → Prop
  | scalar {v : Value} {x : Node} (hx : StoresScalar (h.view v) x) : Stores h v x
  | list {xs : List Value} {ys : List Node} (hl : xs.length = ys.length)
      (hp : ∀ p ∈ xs.zip ys, Stores h p.1 p.2) : Stores h (.list xs) (.list ys)
  | map {es : List (Value × Value)} {ds : List (String × Node)} (hl : es.length = ds.length)
      (hk : ∀ p ∈ es.zip ds, (h.view p.1.1).text? = some p.2.1)
      (hp : ∀ p ∈ es.zip ds, Stores h p.1.2 p.2.2) : Stores h (.map es) (.document ds)

theorem stores_list {xs : List Value} {ys : List Node} (hp : List.Forall₂ (Stores h) xs ys) :
    Stores h (.list xs) (.list ys) :=
  .list hp.length_eq fun _ hm => (List.forall₂_iff_zip.mp hp).2 hm

theorem stores_map {es : List (Value × Value)} {ds : List (String × Node)}
    (hp : List.Forall₂ (fun e d => (h.view e.1).text? = some d.1 ∧ Stores h e.2 d.2) es ds) :
    Stores h (.map es) (.document ds) :=
  .map hp.length_eq (fun _ hm => ((List.forall₂_iff_zip.mp hp).2 hm).1)
    fun _ hm => ((List.forall₂_iff_zip.mp hp).2 hm).2

theorem nameOf?_eq {key : Value} {s : String} (hk : (h.view key).text? = some s)
    (hs : '\x00' ∉ s.toList) : Node.nameOf? h key = .ok s := by
  have hcontains : s.toList.contains '\x00' = false := by
    rw [List.contains_eq_mem, decide_eq_false_iff_not]
    exact hs
  rw [Node.nameOf?, hk]
  simp only [hcontains]
  rfl

/-- The stored form of an entry. -/
def entryNode (h : Heap) (n : Nat) (e : Value × Value) : Except Fault (String × Node) := do
  let name ← Node.nameOf? h e.1
  return (name, ← Node.ofValueWithin h n e.2)

/-- **Every storable document is stored as it should be**, in native values. -/
theorem ofValueWithin_stores {v : Value} (hv : Storable h v) {n : Nat} (hn : v.depth < n) :
    ∃ x, Node.ofValueWithin h n v = .ok x ∧ Stores h v x ∧ Native x := by
  induction hv generalizing n with
  | scalar hv =>
    obtain ⟨n, rfl⟩ : ∃ k, n = k + 1 := ⟨n - 1, by omega⟩
    obtain ⟨x, hx, hstores, hnative⟩ := ofValueWithin_scalar hv n
    exact ⟨x, hx, .scalar hstores, hnative⟩
  | @list xs hx ih =>
    have hdepth : (Value.list xs).depth = Value.listDepth xs + 1 := rfl
    obtain ⟨n, rfl⟩ : ∃ k, n = k + 1 := ⟨n - 1, by omega⟩
    have hitems : ∀ x ∈ xs, ∃ y, Node.ofValueWithin h n x = .ok y ∧ Stores h x y ∧ Native y :=
      fun x hm => ih x hm (by have := depth_le_listDepth hm; omega)
    choose! node hnode hstores hnative using hitems
    have hmap : xs.mapM (Node.ofValueWithin h n) = .ok (xs.map node) := by
      rw [mapM_eq_ok, List.forall₂_map_right_iff, List.forall₂_same]
      exact hnode
    refine ⟨.list (xs.map node), ?_, stores_list ?_, .list (List.forall_mem_map.mpr hnative)⟩
    · show (xs.mapM (Node.ofValueWithin h n) >>= fun ys => pure (Node.list ys)) = _
      rw [hmap]
      rfl
    · rw [List.forall₂_map_right_iff, List.forall₂_same]
      exact hstores
  | @map es hk hd he ih =>
    have hdepth : (Value.map es).depth = Value.entriesDepth es + 1 := rfl
    obtain ⟨n, rfl⟩ : ∃ k, n = k + 1 := ⟨n - 1, by omega⟩
    have hvalues : ∀ e ∈ es, ∃ y, Node.ofValueWithin h n e.2 = .ok y ∧ Stores h e.2 y ∧ Native y :=
      fun e hm => ih e hm (by have := depth_le_of_mem hm; omega)
    choose! node hnode hstores hnative using hvalues
    choose! name hname hnul using hk
    have hmap : es.mapM (entryNode h n) = .ok (es.map fun e => (name e, node e)) := by
      rw [mapM_eq_ok, List.forall₂_map_right_iff, List.forall₂_same]
      intro e hm
      rw [entryNode, nameOf?_eq (hname e hm) (hnul e hm), hnode e hm]
      rfl
    have hnames : ((es.map fun e => (name e, node e)).map (·.1)).Nodup := by
      have htexts : es.map (fun e => (h.view e.1).text?) = (es.map name).map some := by
        rw [List.map_map]
        exact List.map_congr_left hname
      rw [List.map_map]
      rw [htexts] at hd
      exact hd.of_map some
    refine ⟨.document (es.map fun e => (name e, node e)), ?_, stores_map ?_,
      .document hnames (List.forall_mem_map.mpr hnul) (List.forall_mem_map.mpr hnative)⟩
    · show (es.mapM (entryNode h n) >>= fun ds => pure (Node.document ds)) = _
      rw [hmap]
      rfl
    · rw [List.forall₂_map_right_iff, List.forall₂_same]
      exact fun e hm => ⟨hname e hm, hstores e hm⟩

/-! ### Update documents -/

/-- A notation that loses nothing: a native document that is written in it is read back. -/
def Faithful {β : Type} (write : Node → β) (read : β → Except Fault Node) : Prop :=
  ∀ es, Native (.document es) → read (write (.document es)) = .ok (.document es)

/-- The document of a patch is a map. -/
theorem document_patch {p : Patch} {doc : Value} (hd : p.document h = .ok doc) :
    ∃ es, doc = .map es := by
  rw [Patch.document, Heap.document, layerBound, documentWithin] at hd
  obtain ⟨es, _, hd⟩ := bind_eq_ok.mp hd
  cases hd
  exact ⟨es, rfl⟩

/-- What is stored of a map is a document. -/
theorem document_of_stores {es : List (Value × Value)} {x : Node} (hx : Stores h (.map es) x) :
    ∃ ds, x = .document ds := by
  cases hx with
  | scalar hx => cases hx
  | map hl hk hp => exact ⟨_, rfl⟩

/-- **The update document of a patch comes back from its bytes.** If a patch is not empty and its
document is storable, it is stored as it should be, and every notation that loses nothing gives back
what was stored. The notation here does so for all documents that it can tell the length of. -/
theorem decode_writePatch (h : Heap) (p : Patch) {doc : Value} (hp : p.isEmpty = false)
    (hd : p.document h = .ok doc) (hs : Storable h doc) :
    ∃ es, ofPatch? h p = .ok (.document es) ∧ Stores h doc (.document es) ∧
      (∀ {β : Type} (write : Node → β) (read : β → Except Fault Node), Faithful write read →
        (do read (write (← ofPatch? h p))) = .ok (.document es)) ∧
      ((encode (.document es)).length < 2 ^ 31 →
        (do decode (← writePatch h p)) = .ok (.document es)) := by
  have hbound : doc.depth < h.layerBound doc := by
    rw [layerBound]
    omega
  obtain ⟨x, hx, hstores, hnative⟩ := ofValueWithin_stores hs hbound
  have hstored : ofPatch? h p = .ok x := by
    rw [ofPatch?, hp, hd]
    exact hx
  obtain ⟨_, rfl⟩ := document_patch hd
  obtain ⟨es, rfl⟩ := document_of_stores hstores
  refine ⟨es, hstored, hstores, fun write read hfaithful => ?_, fun hl => ?_⟩
  · rw [hstored]
    exact hfaithful es hnative
  · rw [writePatch, hstored]
    exact decode_encode hnative hl

/-- A date, a duration, a large whole number and a member that stands for it, a tuple of these, and
a map with an instant, a time of day and a price. -/
def stock : Heap :=
  ⟨#[.date ⟨2020, 1, 2⟩, .duration ⟨0, 1, 500000⟩, .int none 5000000000,
    .member ⟨"Size", false⟩ "LARGE" 3, .tuple none [1, 2, 4],
    .text none "seen", .datetime ⟨⟨1969, 12, 31⟩, ⟨23, 59, 59, 999999, none⟩⟩,
    .text none "at", .time ⟨7, 30, 0, 0, none⟩,
    .text none "price", .decimal (.finite false 950 (-2)),
    .map none [(6, 7), (8, 9), (10, 11)]]⟩

/-- The tuple and the map are set, and a name is unset. -/
def stockPatch : Patch :=
  ((Patch.empty.set (.plain "parts") (.ref 5)).set (.plain "lot") (.ref 12)).unset (.plain "nick")

def stockDocument : Value :=
  .map [
    (.text "$set", .map [
      (.text "parts", .list [.ref 1, .ref 2, .ref 3]),
      (.text "lot", .map [(.ref 6, .ref 7), (.ref 8, .ref 9), (.ref 10, .ref 11)])]),
    (.text "$unset", .map [(.text "nick", .text "")])]

/-- What comes back: the instant before the epoch is a millisecond before it. -/
def stockEntries (took : Binary64) : List (String × Node) :=
  [("$set", .document [
      ("parts", .list [.datetime 1577923200000, .double took, .int64 5000000000]),
      ("lot", .document [("seen", .datetime (-1)), ("at", .text "07:30:00"),
        ("price", .decimal (950 + 2 ^ 113 * (6176 - 2)))])]),
    ("$unset", .document [("nick", .text "")])]

theorem storable_stock : Storable stock stockDocument := by
  have hparts : Storable stock (.list [.ref 1, .ref 2, .ref 3]) := by
    refine .list fun x hx => .scalar ?_
    revert x
    decide
  have hlot : Storable stock (.map [(.ref 6, .ref 7), (.ref 8, .ref 9), (.ref 10, .ref 11)]) := by
    refine storable_map ["seen", "at", "price"] rfl (by decide) (by decide) fun e he => .scalar ?_
    revert e
    decide
  have hset : Storable stock (.map [(.text "parts", .list [.ref 1, .ref 2, .ref 3]),
      (.text "lot", .map [(.ref 6, .ref 7), (.ref 8, .ref 9), (.ref 10, .ref 11)])]) :=
    storable_map ["parts", "lot"] rfl (by decide) (by decide)
      (List.forall_mem_cons.mpr ⟨hparts, List.forall_mem_singleton.mpr hlot⟩)
  have hunset : Storable stock (.map [(.text "nick", .text "")]) :=
    storable_map ["nick"] rfl (by decide) (by decide)
      (List.forall_mem_singleton.mpr (.scalar trivial))
  exact storable_map ["$set", "$unset"] rfl (by decide) (by decide)
    (List.forall_mem_cons.mpr ⟨hset, List.forall_mem_singleton.mpr hunset⟩)

theorem decode_writePatch_stock :
    stockPatch.isEmpty = false ∧ stockPatch.document stock = .ok stockDocument ∧
    Storable stock stockDocument ∧
    (do decode (← writePatch stock stockPatch)) =
      .ok (.document (stockEntries (.finite false (3 * 2 ^ 1073)))) := by
  have htook : Binary64.ofRatio false 1500000 1000000 = .finite false (3 * 2 ^ 1073) := by
    decide +kernel
  have hstored : ofPatch? stock stockPatch =
      .ok (.document (stockEntries (.ofRatio false 1500000 1000000))) := rfl
  have hlength : (encode (.document (stockEntries (.finite false (3 * 2 ^ 1073))))).length <
      2 ^ 31 := by
    decide +kernel
  obtain ⟨es, hes, _, _, hdecode⟩ := decode_writePatch stock stockPatch rfl rfl storable_stock
  rw [htook] at hstored
  obtain rfl := Node.document.inj (Except.ok.inj (hstored.symm.trans hes))
  exact ⟨rfl, rfl, storable_stock, hdecode hlength⟩

end DocDelta.Bson
