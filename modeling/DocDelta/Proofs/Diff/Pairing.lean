import Mathlib.Data.List.Nodup
import DocDelta.Diff.Sequence
import DocDelta.Proofs.Value.Answers

/-! How the items of two sequences are paired.

Each new item is paired with an old one that is similar and not used up yet, or is added. So an
old item is left over or updated at most once, and what is updated or added is a new item. -/
namespace DocDelta.Diff
open Heap
variable {h : Heap}

/-! ### One more item -/

theorem findSimilar_mem {item : Value} {xs : List (Nat × Value)} {e : Nat × Value}
    (he : findSimilar h item xs = .ok (some e)) : e ∈ xs := by
  induction xs with
  | nil => cases he
  | cons d xs ih =>
    obtain ⟨similar, _, he⟩ := bind_eq_ok.mp he
    split at he
    · cases he
      exact List.mem_cons_self ..
    · exact List.mem_cons_of_mem d (ih he)

/-- What is found is similar. -/
theorem similar_of_findSimilar {item : Value} {xs : List (Nat × Value)} {e : Nat × Value}
    (he : findSimilar h item xs = .ok (some e)) : areSimilar h e.2 item = .ok true := by
  induction xs with
  | nil => cases he
  | cons d xs ih =>
    obtain ⟨similar, hs, he⟩ := bind_eq_ok.mp he
    cases similar with
    | true =>
      cases he
      exact hs
    | false => exact ih he

/-- Where nothing is found nothing is similar. -/
theorem dissimilar_of_findSimilar {item : Value} {xs : List (Nat × Value)}
    (hn : findSimilar h item xs = .ok none) : ∀ e ∈ xs, areSimilar h e.2 item = .ok false := by
  induction xs with
  | nil => exact nofun
  | cons d xs ih =>
    obtain ⟨similar, hs, hn⟩ := bind_eq_ok.mp hn
    rw [List.forall_mem_cons]
    cases similar with
    | true => cases hn
    | false => exact ⟨hs, ih hn⟩

/-- What becomes of a pairing when one more item is paired. -/
inductive Pairs (h : Heap) (item : Value) (p : Pairing) : Pairing → Prop
  | added : Pairs h item p { p with additions := p.additions ++ [item] }
  | found {e : Nat × Value} (he : e ∈ p.unused) (hd : h.deepEqual e.2 item = .ok true) :
      Pairs h item p { p with unused := p.unused.filter fun d => d.1 != e.1 }
  | updated {e : Nat × Value} (he : e ∈ p.unused) :
      Pairs h item p ⟨p.unused.filter fun d => d.1 != e.1, p.updates ++ [(e.1, item)], p.additions⟩

theorem pairs_of_add {p q : Pairing} {item : Value} (hq : p.add h item = .ok q) :
    Pairs h item p q := by
  obtain ⟨found, hf, hq⟩ := bind_eq_ok.mp hq
  cases found with
  | none =>
    cases hq
    exact .added
  | some e =>
    have he : e ∈ p.unused := findSimilar_mem hf
    obtain ⟨equal, hd, hq⟩ := bind_eq_ok.mp hq
    cases equal with
    | true =>
      cases hq
      exact .found he hd
    | false =>
      cases hq
      exact .updated he

/-- Pairing one more item only uses old items up. -/
theorem Pairs.unused_subset {p q : Pairing} {item : Value} (hp : Pairs h item p q) :
    q.unused ⊆ p.unused := by
  cases hp with
  | added => exact fun e he => he
  | found => exact List.filter_subset_self _
  | updated => exact List.filter_subset_self _

/-- What pairing one more item carries from the items paired so far to one more holds in the
end of all new items. -/
theorem pairUp_grows {P : List Value → Pairing → Prop} {xs ys : List Value} {p : Pairing}
    (hstart : P [] ⟨xs.zipIdx.map fun (x, i) => (i, x), [], []⟩)
    (hpairs : ∀ {zs p q y}, P zs p → Pairs h y p q → P (zs ++ [y]) q)
    (hp : pairUp h xs ys = .ok p) : P ys p := by
  have hfold : ∀ (done todo : List Value) (p q : Pairing), P done p →
      todo.foldlM (fun p y => p.add h y) p = .ok q → P (done ++ todo) q := by
    intro done todo
    induction todo generalizing done with
    | nil =>
      rintro p _ hp ⟨⟩
      rwa [List.append_nil]
    | cons z todo ih =>
      intro p q hp hq
      rw [List.foldlM_cons] at hq
      obtain ⟨r, hr, hq⟩ := bind_eq_ok.mp hq
      rw [List.append_cons]
      exact ih _ r q (hpairs hp (pairs_of_add hr)) hq
  exact hfold [] ys _ p hstart hp

/-- What pairing each of the new items keeps holds of how they all are paired. -/
theorem pairUp_keeps {P : Pairing → Prop} {xs ys : List Value} {p : Pairing}
    (hstart : P ⟨xs.zipIdx.map fun (x, i) => (i, x), [], []⟩)
    (hpairs : ∀ {p q y}, y ∈ ys → P p → Pairs h y p q → P q) (hp : pairUp h xs ys = .ok p) : P p := by
  refine pairUp_grows (P := fun zs p => zs ⊆ ys → P p) (fun _ => hstart) ?_ hp (List.Subset.refl ys)
  intro zs p q y hzs hq hsub
  obtain ⟨hzs', hy⟩ := List.append_subset.mp hsub
  exact hpairs (hy (List.mem_singleton.mpr rfl)) (hzs hzs') hq

/-! ### All items -/

/-- Pairing uses up old items: each is left over or updated, at most once. -/
def Used (n : Nat) (p : Pairing) : Prop :=
  ((p.unused ++ p.updates).map (·.1)).Nodup ∧ ∀ e ∈ p.unused ++ p.updates, e.1 < n

theorem Pairs.used {n : Nat} {p q : Pairing} {item : Value} (hp : Used n p) (hq : Pairs h item p q) :
    Used n q := by
  have hrest : ∀ j, Used n { p with unused := p.unused.filter fun e => e.1 != j } := by
    intro j
    have hsub : ((p.unused.filter fun e => e.1 != j) ++ p.updates).Sublist (p.unused ++ p.updates) :=
      List.filter_sublist.append (.refl _)
    exact ⟨hp.1.sublist (hsub.map _), fun e he => hp.2 e (hsub.subset he)⟩
  cases hq with
  | added => exact hp
  | found => exact hrest _
  | @updated e hmem =>
    obtain ⟨j, candidate⟩ := e
    have hnew : j ∉ (((p.unused.filter fun e => e.1 != j) ++ p.updates).map (·.1)) := by
      rw [List.map_append, List.mem_append]
      rintro (hj | hj)
      · obtain ⟨e, he, rfl⟩ := List.mem_map.mp hj
        simp at he
      · have hdisjoint := (List.nodup_append.mp (List.map_append ▸ hp.1)).2.2
        exact hdisjoint j (List.mem_map_of_mem hmem) j hj rfl
    refine ⟨?_, fun e he => ?_⟩
    · show (((p.unused.filter fun e => e.1 != j) ++ (p.updates ++ [(j, item)])).map (·.1)).Nodup
      rw [← List.append_assoc, List.map_append, List.nodup_append]
      refine ⟨(hrest j).1, List.nodup_singleton _, fun a ha b hb hab => ?_⟩
      obtain rfl : b = j := List.mem_singleton.mp hb
      exact hnew (hab ▸ ha)
    · rw [← List.append_assoc] at he
      rcases List.mem_append.mp he with he | he
      · exact (hrest j).2 e he
      · rw [List.mem_singleton.mp he]
        exact hp.2 (j, candidate) (List.mem_append_left _ hmem)

/-- The updates of a pairing are of distinct old items. -/
theorem used_pairUp {xs ys : List Value} {p : Pairing} (hp : pairUp h xs ys = .ok p) :
    Used xs.length p := by
  refine pairUp_keeps ⟨?_, fun e he => ?_⟩ (fun _ hused hq => hq.used hused) hp
  · simp only [List.append_nil, List.map_map, Function.comp_def]
    rw [List.zipIdx_map_snd]
    exact List.nodup_range'
  · rw [List.append_nil] at he
    obtain ⟨⟨x, i⟩, hm, rfl⟩ := List.mem_map.mp he
    exact List.snd_lt_of_mem_zipIdx hm

/-- Pairing draws on a list: what it updates and adds are items of it. -/
structure Draws (ys : List Value) (p : Pairing) : Prop where
  updates : ∀ e ∈ p.updates, e.2 ∈ ys
  additions : ∀ v ∈ p.additions, v ∈ ys

theorem Pairs.draws {ys : List Value} {p q : Pairing} {item : Value} (hp : Draws ys p)
    (hi : item ∈ ys) (hq : Pairs h item p q) : Draws ys q := by
  cases hq with
  | added =>
    refine ⟨hp.updates, fun v hv => ?_⟩
    rcases List.mem_append.mp hv with hv | hv
    · exact hp.additions v hv
    · exact List.mem_singleton.mp hv ▸ hi
  | found => exact ⟨hp.updates, hp.additions⟩
  | updated =>
    refine ⟨fun d hd => ?_, hp.additions⟩
    rcases List.mem_append.mp hd with hd | hd
    · exact hp.updates d hd
    · exact List.mem_singleton.mp hd ▸ hi

/-- Pairing draws on the new items. -/
theorem draws_pairUp {xs ys : List Value} {p : Pairing} (hp : pairUp h xs ys = .ok p) :
    Draws ys p :=
  pairUp_keeps ⟨nofun, nofun⟩ (fun hy hd hq => hq.draws hd hy) hp

end DocDelta.Diff
