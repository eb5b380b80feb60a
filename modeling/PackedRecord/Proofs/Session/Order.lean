import PackedRecord.Proofs.Session.Confined
import PackedRecord.Store.Search

/-!
The order of views.

Views are compared by the bytes that both have room for, and by their sizes if
those are the same. Taken one byte at a time this is the order of lists in the
standard library, so it is total, and only views that show the same are equal.
What two runs begin with alike plays no part in it: behind it one of them has
ended, or the next bytes differ and decide.
-/

namespace PackedRecord

namespace Bytes

theorem order_nil_cons (b : UInt8) (bs : Bytes) : order [] (b :: bs) = .lt := by
  simp [order, orderWithin, Nat.compare_eq_lt]

theorem order_cons_nil (b : UInt8) (bs : Bytes) : order (b :: bs) [] = .gt := by
  simp [order, orderWithin, Nat.compare_eq_gt]

/-- The first bytes decide, and the rest only if they are the same. -/
theorem order_cons_cons (b c : UInt8) (bs cs : Bytes) :
    order (b :: bs) (c :: cs) = (compare b c).then (order bs cs) := by
  have hlength : compare (bs.length + 1) (cs.length + 1) = compare bs.length cs.length := by
    simp only [Nat.compare_eq_ite_lt, Nat.add_lt_add_iff_right]
  simp only [order, List.length_cons, hlength]
  rw [Nat.add_min_add_right, orderWithin, Ordering.then_assoc]

theorem order_eq_compare (xs ys : Bytes) : xs.order ys = compare xs ys := by
  induction xs generalizing ys with
  | nil =>
      cases ys with
      | nil => rfl
      | cons c cs => rw [order_nil_cons, List.compare_nil_cons]
  | cons b bs ih =>
      cases ys with
      | nil => rw [order_cons_nil, List.compare_cons_nil]
      | cons c cs => rw [order_cons_cons, ih, List.compare_cons_cons]

theorem order_swap (xs ys : Bytes) : xs.order ys = (ys.order xs).swap := by
  rw [order_eq_compare, order_eq_compare]
  exact Std.OrientedOrd.eq_swap

theorem order_eq_eq_iff {xs ys : Bytes} : xs.order ys = .eq ↔ xs = ys := by
  rw [order_eq_compare]
  exact Std.LawfulEqOrd.compare_eq_iff_eq

theorem isLE_order_trans {xs ys zs : Bytes} (h : (xs.order ys).isLE) (hnext : (ys.order zs).isLE) :
    (xs.order zs).isLE := by
  rw [order_eq_compare] at h hnext ⊢
  exact Std.TransOrd.isLE_trans h hnext

theorem equals_iff_order {xs ys : Bytes} : xs.equals ys = true ↔ xs.order ys = .eq := by
  rw [equals, beq_iff_eq]

theorem equals_iff {xs ys : Bytes} : xs.equals ys = true ↔ xs = ys :=
  equals_iff_order.trans order_eq_eq_iff

/-- A common beginning plays no part. -/
theorem order_append (common xs ys : Bytes) :
    (common ++ xs).order (common ++ ys) = xs.order ys := by
  induction common with
  | nil => rfl
  | cons b bs ih =>
      rw [List.cons_append, List.cons_append, order_cons_cons, Std.ReflOrd.compare_self]
      exact ih

theorem order_of_prefix {xs ys : Bytes} (h : xs <+: ys) (hne : xs ≠ ys) : xs.order ys = .lt := by
  obtain ⟨rest, rfl⟩ := h
  cases rest with
  | nil => exact absurd (List.append_nil xs).symm hne
  | cons b rest =>
      calc xs.order (xs ++ b :: rest)
        _ = (xs ++ []).order (xs ++ b :: rest) := by rw [List.append_nil]
        _ = order [] (b :: rest) := order_append xs [] (b :: rest)
        _ = .lt := order_nil_cons b rest

/-- Two runs of which neither begins with the other have a first byte that differs. -/
theorem exists_differing {xs ys : Bytes} (hleft : ¬xs <+: ys) (hright : ¬ys <+: xs) :
    ∃ (common : Bytes) (b c : UInt8) (bs cs : Bytes),
      xs = common ++ b :: bs ∧ ys = common ++ c :: cs ∧ b ≠ c := by
  induction xs generalizing ys with
  | nil => exact absurd List.nil_prefix hleft
  | cons b bs ih =>
      cases ys with
      | nil => exact absurd List.nil_prefix hright
      | cons c cs =>
          by_cases hbyte : b = c
          -- a byte that both have joins what they begin with
          · subst hbyte
            rw [List.prefix_cons_inj] at hleft hright
            obtain ⟨common, d, e, ds, es, rfl, rfl, hne⟩ := ih hleft hright
            exact ⟨b :: common, d, e, ds, es, rfl, rfl, hne⟩
          · exact ⟨[], b, c, bs, cs, rfl, rfl, hbyte⟩

/-- The first byte that differs decides, as the number that it is without a sign. -/
theorem order_of_differing (common : Bytes) {b c : UInt8} (bs cs : Bytes) (h : b ≠ c) :
    (common ++ b :: bs).order (common ++ c :: cs) = compare b.toNat c.toNat := by
  have hne : compare b.toNat c.toNat ≠ .eq := by
    rw [Ne, Nat.compare_eq_eq, UInt8.toNat_inj]
    exact h
  rw [order_append, order_cons_cons, UInt8.compare_eq_toNat_compare_toNat]
  cases hbyte : compare b.toNat c.toNat with
  | eq => exact absurd hbyte hne
  | lt | gt => rfl

end Bytes

/-- Values that are bytes are equal as the views are. -/
theorem Value.equal_bytes (s : Store) (v w : View) :
    (Value.bytes v).equal s (.bytes w) = (s.bytes v).equals (s.bytes w) := by
  rw [Bool.eq_iff_iff, Bytes.equals_iff, equal, beq_iff_eq]

/-- Views of one size, each in a store of its own, that have the same bytes in their cells. -/
structure View.SameCells (s t : Store) (v w : View) : Prop where
  size : v.size = w.size
  cell : ∀ k < v.size, (s.block v.block)[v.offset + k]? = (t.block w.block)[w.offset + k]?

/-- What a view shows does not depend on where it lies. -/
theorem View.SameCells.bytes_eq {s t : Store} {v w : View} (h : SameCells s t v w) :
    s.bytes v = t.bytes w := by
  apply List.ext_getElem?
  intro k
  rw [Store.bytes_eq_cut, Store.bytes_eq_cut, getElem?_cut, getElem?_cut, ← h.size]
  split
  case isTrue hk => exact h.cell k hk
  case isFalse => rfl

namespace Session

/-- How a live view compares with another one. -/
def order (σ : Session) (i j : Nat) : Ordering :=
  (σ.store.bytes (σ.view i)).order (σ.store.bytes (σ.view j))

def equals (σ : Session) (i j : Nat) : Bool :=
  (σ.store.bytes (σ.view i)).equals (σ.store.bytes (σ.view j))

/-- The order of any live views. To compare them the other way round swaps the answer. Neither
comes first exactly if they are equal, as buffers or as values, and that is exactly if they
show the same bytes. The order is transitive. A view comes before a longer one that begins
with all its bytes; of two views of which neither begins with the other, the first byte that
differs decides, as a number without sign. Only the bytes in the cells count: views of any
session that have the same ones, in whatever blocks and places, compare alike. -/
theorem order_lexicographic (actions : List Action) (i j k : Nat) :
    let σ := run actions
    let text (n : Nat) : Bytes := σ.store.bytes (σ.view n)
    (text i).length = (σ.view i).size ∧
      σ.order i j = (σ.order j i).swap ∧
      (σ.order i j = .eq ↔ σ.equals i j = true) ∧
      (σ.equals i j = true ↔ text i = text j) ∧
      (Value.bytes (σ.view i)).equal σ.store (.bytes (σ.view j)) = σ.equals i j ∧
      ((σ.order i j).isLE → (σ.order j k).isLE → (σ.order i k).isLE) ∧
      (text i <+: text j → text i ≠ text j → σ.order i j = .lt) ∧
      (¬text i <+: text j → ¬text j <+: text i →
        ∃ (common : Bytes) (b c : UInt8) (bs cs : Bytes),
          text i = common ++ b :: bs ∧ text j = common ++ c :: cs ∧ b ≠ c ∧
            σ.order i j = compare b.toNat c.toNat) ∧
      ∀ (others : List Action) (m n : Nat),
        let τ := run others
        View.SameCells σ.store τ.store (σ.view i) (τ.view m) →
        View.SameCells σ.store τ.store (σ.view j) (τ.view n) → τ.order m n = σ.order i j := by
  intro σ text
  have hlength : (text i).length = (σ.view i).size :=
    Store.length_bytes ((sound_run actions).view i).valid
  refine ⟨hlength, Bytes.order_swap _ _, Bytes.equals_iff_order.symm, Bytes.equals_iff,
    Value.equal_bytes .., ?_, ?_, ?_, ?_⟩
  · intro hfirst hsecond
    exact Bytes.isLE_order_trans hfirst hsecond
  · intro hbegins hne
    exact Bytes.order_of_prefix hbegins hne
  · intro hleft hright
    obtain ⟨common, b, c, bs, cs, hi, hj, hne⟩ := Bytes.exists_differing hleft hright
    have hdecides := Bytes.order_of_differing common bs cs hne
    rw [← hi, ← hj] at hdecides
    exact ⟨common, b, c, bs, cs, hi, hj, hne, hdecides⟩
  · intro others m n τ hleft hright
    rw [order, order, hleft.bytes_eq, hright.bytes_eq]

/-- Cuts of one buffer that begin alike, a byte that would be negative with a sign, and the same
two cuts in another session where the longer one is the whole buffer. -/
theorem order_lexicographic_high_byte :
    let actions : List Action :=
      [.make [1, 0x80, 7, 0x80, 7, 9] (by decide), .slice 0 1 3, .slice 0 3 6]
    let others : List Action := [.make [0x80, 7, 9] (by decide), .slice 0 0 2]
    let σ := run actions
    σ.order 0 1 = .lt ∧ σ.order 1 2 = .lt ∧ (σ.order 0 2).isLE ∧
      (run others).order 1 0 = .lt := by
  intro actions others σ
  obtain ⟨-, -, -, -, -, htrans, -, hdiffering, -⟩ := order_lexicographic actions 0 1 2
  obtain ⟨-, -, -, -, -, -, hbegins, -, hmoved⟩ := order_lexicographic actions 1 2 0
  have hlonger : σ.order 1 2 = .lt := hbegins (by decide) (by decide)
  have hbyte : σ.order 0 1 = .lt := by
    obtain ⟨common, b, c, bs, cs, hleft, hright, -, horder⟩ :=
      hdiffering (by decide) (by decide)
    have hfirst : 1 :: [0x80, 7, 0x80, 7, 9] = common ++ b :: bs := hleft
    have hsecond : 0x80 :: [7] = common ++ c :: cs := hright
    cases common with
    | nil =>
        obtain ⟨rfl, -⟩ := List.cons.inj hfirst
        obtain ⟨rfl, -⟩ := List.cons.inj hsecond
        exact horder
    | cons d ds =>
        -- the first bytes differ already, so nothing can stand in front of them
        have hone : (1 : UInt8) = d := (List.cons.inj hfirst).1
        exact absurd (hone.trans (List.cons.inj hsecond).1.symm) (by decide)
  refine ⟨hbyte, hlonger, htrans (by rw [hbyte]; rfl) (by rw [hlonger]; rfl), ?_⟩
  exact (hmoved others 1 0 ⟨by decide, by decide⟩ ⟨by decide, by decide⟩).trans hlonger

end Session

end PackedRecord
