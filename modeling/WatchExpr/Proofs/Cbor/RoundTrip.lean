import WatchExpr.Cbor.Reading
import WatchExpr.Proofs.Machine.Emission

namespace WatchExpr.Cbor

@[simp] theorem length_bigEndian (count : Nat) (n : UInt64) :
    (bigEndian count n).length = count := by
  simp [bigEndian]

theorem ofBigEndian_bigEndian {count : Nat} (hc : count ≤ 8) {n : UInt64}
    (hn : n.toNat < 2 ^ (8 * count)) : ofBigEndian (bigEndian count n) = n := by
  rw [ofBigEndian, bigEndian, List.reverse_reverse, ofLittleEndian_littleEndian hc hn]

theorem takeBytes_append {n : Nat} {front : List UInt8} (h : front.length = n) (rest : List UInt8) :
    takeBytes n (front ++ rest) = .ok (front, rest) := by
  simp [takeBytes, ← h]

/-- The first byte of a head: the major type and five more bits. -/
def mark (m : Major) (info : UInt8) : UInt8 := m.number * 32 + info

theorem mark_parts (m : Major) {info : UInt8} (h : info < 32) :
    Major.ofByte (mark m info) = m ∧ mark m info &&& 0x1f = info := by
  have hall : ∀ n < 32, ∀ m ∈ [Major.unsigned, .negative, .bytes, .text, .array, .map, .tag,
      .primitive], Major.ofByte (mark m (UInt8.ofNat n)) = m ∧
        mark m (UInt8.ofNat n) &&& 0x1f = UInt8.ofNat n := by
    decide
  have hm := hall info.toNat h m (by cases m <;> simp)
  rw [UInt8.ofNat_toNat] at hm
  exact hm

theorem toNat_toUInt8_of_lt {n : UInt64} (h : n.toNat < 256) : n.toUInt8.toNat = n.toNat := by
  rw [UInt64.toNat_toUInt8]
  exact Nat.mod_eq_of_lt h

theorem toUInt64_toUInt8_of_lt {n : UInt64} (h : n.toNat < 256) : n.toUInt8.toUInt64 = n := by
  apply UInt64.toNat_inj.1
  rw [UInt8.toNat_toUInt64, toNat_toUInt8_of_lt h]

/-- An argument below 24 stands in the first byte. -/
theorem readHead_short (m : Major) {n : UInt64} (h : n.toNat < 24) (rest : List UInt8) :
    readHead (mark m n.toUInt8 :: rest) = .ok (⟨m, n.toUInt8, some n⟩, rest) := by
  have hn : n.toUInt8.toNat = n.toNat := toNat_toUInt8_of_lt (by omega)
  have hlt : n.toUInt8 < 32 := UInt8.lt_iff_toNat_lt.2 (hn ▸ Nat.lt_trans h (by decide))
  obtain ⟨hm, hi⟩ := mark_parts m hlt
  rw [readHead]
  simp only [hm, hi, hn]
  split
  case h_9 => rw [toUInt64_toUInt8_of_lt (by omega)]; rfl
  all_goals omega

/-- A longer argument follows in one, two, four or eight bytes. -/
theorem readHead_long {m : Major} (hm : m ≠ .primitive) {info : UInt8} {count : Nat}
    (h : (info, count) ∈ [(24, 1), (25, 2), (26, 4), (27, 8)]) {n : UInt64}
    (hn : n.toNat < 2 ^ (8 * count)) (rest : List UInt8) :
    readHead (mark m info :: bigEndian count n ++ rest) = .ok (⟨m, info, some n⟩, rest) := by
  have hparts : info < 32 ∧ count ≤ 8 := by
    have hall : ∀ p ∈ [((24 : UInt8), 1), (25, 2), (26, 4), (27, 8)], p.1 < 32 ∧ p.2 ≤ 8 := by
      decide
    exact hall _ h
  obtain ⟨hmajor, hi⟩ := mark_parts m hparts.1
  have htake := takeBytes_append (length_bigEndian count n) rest
  have hvalue := ofBigEndian_bigEndian hparts.2 hn
  rw [List.cons_append, readHead]
  simp only [hmajor, hi]
  simp only [List.mem_cons, Prod.mk.injEq, List.not_mem_nil, or_false] at h
  obtain ⟨rfl, rfl⟩ | ⟨rfl, rfl⟩ | ⟨rfl, rfl⟩ | ⟨rfl, rfl⟩ := h
  · change (takeBytes 1 _ >>= _) >>= _ = _
    rw [htake]
    simp [hvalue, bind, Except.bind, pure, Except.pure]
    cases m with
    | primitive => exact absurd rfl hm
    | _ => rfl
  all_goals
    change takeBytes _ _ >>= _ = _
    rw [htake]
    simp only [hvalue, bind, Except.bind, pure, Except.pure]

theorem readHead_writeHead {m : Major} (hm : m ≠ .primitive) (n : UInt64) (rest : List UInt8) :
    ∃ info, readHead (writeHead m n ++ rest) = .ok (⟨m, info, some n⟩, rest) := by
  simp only [writeHead]
  split
  · rename_i h
    exact ⟨_, readHead_short m h rest⟩
  split
  · rename_i h
    exact ⟨_, readHead_long hm (by simp) h rest⟩
  split
  · rename_i h
    exact ⟨_, readHead_long hm (by simp) h rest⟩
  split
  · rename_i h
    exact ⟨_, readHead_long hm (by simp) h rest⟩
  · exact ⟨_, readHead_long hm (by simp) n.toNat_lt rest⟩

theorem writeHead_pos (m : Major) (n : UInt64) : 0 < (writeHead m n).length := by
  simp only [writeHead]
  split
  · simp
  split
  · simp
  split
  · simp
  split <;> simp

theorem checkLength_toUInt64 (m : Major) {n : Nat} (h : n < 2 ^ 63) :
    checkLength m n.toUInt64 = .ok n := by
  have hn : n.toUInt64.toNat = n := by
    rw [Nat.toUInt64_eq, UInt64.toNat_ofNat']
    omega
  rw [checkLength, if_pos (UInt64.lt_iff_toNat_lt.2 (by rw [hn]; exact h)), hn]

namespace Item

/-- The items that records are made of, within the limits of a reader that is inside some others.
-/
inductive Storable : (depth : Nat) → Item → Prop where
  | unsigned {depth : Nat} (n : UInt64) : Storable depth (.unsigned n)
  | bytes {depth : Nat} {b : List UInt8} (h : b.length < 2 ^ 63) : Storable depth (.bytes b)
  | text {depth : Nat} {t : Text} (h : t.length < 2 ^ 63) : Storable depth (.ofText t)
  | simple {depth : Nat} {n : UInt8} (h : n < 24) : Storable depth (.simple n)
  | map {depth : Nat} {entries : List (Item × Item)} (hd : depth < maxDepth)
      (hn : entries.length ≤ maxElements)
      (hkeys : ∀ e ∈ entries, Storable (depth + 1) e.1)
      (hvalues : ∀ e ∈ entries, Storable (depth + 1) e.2) : Storable depth (.map entries)

def inTurn (entries : List (Item × Item)) : List Item := entries.flatMap fun e => [e.1, e.2]

theorem writeEntries_eq (entries : List (Item × Item)) :
    writeEntries entries = writeAll (inTurn entries) := by
  induction entries with
  | nil => rfl
  | cons e entries ih => simp [writeEntries, inTurn, writeAll, ih]

theorem pairUp_inTurn (entries : List (Item × Item)) : pairUp (inTurn entries) = entries := by
  induction entries with
  | nil => rfl
  | cons e entries ih => exact congrArg (e :: ·) ih

theorem length_inTurn (entries : List (Item × Item)) :
    (inTurn entries).length = entries.length * 2 := by
  induction entries with
  | nil => rfl
  | cons e entries ih => simp [inTurn] at ih ⊢; omega

theorem length_write_le {x : Item} {xs : List Item} (h : x ∈ xs) :
    x.write.length ≤ (writeAll xs).length := by
  induction xs with
  | nil => cases h
  | cons y xs ih =>
    rw [writeAll, List.length_append]
    obtain rfl | h := List.mem_cons.1 h
    · omega
    · exact Nat.le_trans (ih h) (Nat.le_add_left _ _)

theorem readCounted_writeAll {item : List UInt8 → Except Error (Item × List UInt8)}
    {xs : List Item} (h : ∀ x ∈ xs, ∀ rest, item (x.write ++ rest) = .ok (x, rest))
    (rest : List UInt8) : readCounted item xs.length (writeAll xs ++ rest) = .ok (xs, rest) := by
  induction xs with
  | nil => rfl
  | cons x xs ih =>
    obtain ⟨hx, hxs⟩ := List.forall_mem_cons.1 h
    rw [List.length_cons, readCounted, writeAll, List.append_assoc, hx]
    simp only [bind, Except.bind, ih hxs]
    rfl

theorem readItems_writeAll (m : Major) (info : UInt8) (excess : Error)
    {item : List UInt8 → Except Error (Item × List UInt8)} {each n : Nat} {xs : List Item}
    (hn : n ≤ maxElements)
    (hlen : xs.length = n * each) (h : ∀ x ∈ xs, ∀ rest, item (x.write ++ rest) = .ok (x, rest))
    (rest : List UInt8) :
    readItems item ⟨m, info, some n.toUInt64⟩ each excess (writeAll xs ++ rest) =
      .ok (xs, rest) := by
  have hcheck := checkLength_toUInt64 m (n := n) (Nat.lt_of_le_of_lt hn (by decide))
  simp only [readItems, hcheck, bind, Except.bind]
  rw [if_neg (Nat.not_lt.2 hn), ← hlen]
  exact readCounted_writeAll h rest

theorem Storable.write_pos {depth : Nat} {x : Item} (h : x.Storable depth) :
    0 < x.write.length := by
  cases h with
  | unsigned n =>
    rw [write]
    exact writeHead_pos _ _
  | bytes h =>
    rw [write, List.length_append]
    exact Nat.add_pos_left (writeHead_pos _ _) _
  | text h =>
    rw [ofText, write, List.length_append]
    exact Nat.add_pos_left (writeHead_pos _ _) _
  | simple h => simp [write, h]
  | map hd hn hkeys hvalues =>
    rw [write, List.length_append]
    exact Nat.add_pos_left (writeHead_pos _ _) _

theorem Storable.fuel_pos {depth fuel : Nat} {x : Item} (h : x.Storable depth)
    (hf : x.write.length ≤ fuel) : ∃ n, fuel = n + 1 :=
  Nat.exists_eq_succ_of_ne_zero (Nat.pos_iff_ne_zero.1 (Nat.lt_of_lt_of_le h.write_pos hf))

/-- An item is read as it was written, whatever follows it; as much fuel as it has bytes is
enough. -/
theorem Storable.readItem_write {depth : Nat} {x : Item} (h : x.Storable depth) {fuel : Nat}
    (hf : x.write.length ≤ fuel) (rest : List UInt8) :
    readItem fuel depth (x.write ++ rest) = .ok (x, rest) := by
  induction h generalizing fuel rest with
  | @unsigned depth n =>
    obtain ⟨fuel, rfl⟩ := (.unsigned n : Storable depth _).fuel_pos hf
    obtain ⟨info, hh⟩ := readHead_writeHead (m := .unsigned) nofun n rest
    rw [write, readItem, hh]
    rfl
  | @bytes depth b hb =>
    obtain ⟨fuel, rfl⟩ := (.bytes hb : Storable depth _).fuel_pos hf
    obtain ⟨info, hh⟩ := readHead_writeHead (m := .bytes) nofun b.length.toUInt64 (b ++ rest)
    rw [write, List.append_assoc, readItem, hh]
    change (readString _ _ >>= _) = _
    simp only [readString, checkLength_toUInt64 _ hb, takeBytes_append rfl, bind, Except.bind,
      pure, Except.pure, List.flatten_singleton]
  | @text depth t ht =>
    obtain ⟨fuel, rfl⟩ := (.text ht : Storable depth _).fuel_pos hf
    obtain ⟨info, hh⟩ := readHead_writeHead (m := .text) nofun t.length.toUInt64 (t ++ rest)
    rw [ofText, write, List.flatten_singleton, List.append_assoc, readItem, hh]
    change (readString _ _ >>= _) = _
    simp only [readString, checkLength_toUInt64 _ ht, takeBytes_append rfl, bind, Except.bind,
      pure, Except.pure]
  | @simple depth n hn =>
    obtain ⟨fuel, rfl⟩ := (.simple hn : Storable depth _).fuel_pos hf
    have hlt : n.toNat < 24 := hn
    have hh := readHead_short .primitive (n := n.toUInt64) (by rwa [UInt8.toNat_toUInt64]) rest
    rw [UInt8.toUInt8_toUInt64] at hh
    rw [write, if_pos hn, readItem]
    change (readHead (mark .primitive n :: rest) >>= _) = _
    rw [hh]
    simp only [bind, Except.bind]
    split
    case h_4 => simp [pure, Except.pure]
    all_goals omega
  | @map depth entries hd hn hkeys hvalues ihkeys ihvalues =>
    obtain ⟨fuel, rfl⟩ := (Storable.map hd hn hkeys hvalues).fuel_pos hf
    obtain ⟨info, hh⟩ := readHead_writeHead (m := .map) nofun entries.length.toUInt64
      (writeEntries entries ++ rest)
    have hfuel : ∀ x ∈ inTurn entries, x.write.length ≤ fuel := by
      intro x hx
      have hle := length_write_le hx
      have hhead := writeHead_pos .map entries.length.toUInt64
      rw [write, List.length_append, writeEntries_eq] at hf
      omega
    have hitems : ∀ x ∈ inTurn entries, ∀ rest,
        readItem fuel (depth + 1) (x.write ++ rest) = .ok (x, rest) := by
      intro x hx rest
      have hlen := hfuel x hx
      obtain ⟨e, he, hx⟩ := List.mem_flatMap.1 hx
      obtain rfl | rfl : x = e.1 ∨ x = e.2 := by simpa using hx
      · exact ihkeys e he hlen rest
      · exact ihvalues e he hlen rest
    have hread := readItems_writeAll .map info .tooManyPairs hn (length_inTurn entries) hitems rest
    rw [write, List.append_assoc, readItem, hh]
    simp only [bind, Except.bind]
    rw [if_neg (Nat.not_le.2 hd), writeEntries_eq, hread]
    simp only [pairUp_inTurn]
    rfl

end Item

/-- An item within the limits is read from its own bytes, with nothing left over. -/
theorem read_written {x : Item} (h : x.Storable 0) : read x.write = .ok x := by
  have hread := h.readItem_write (Nat.le_refl _) []
  rw [List.append_nil] at hread
  have hne : x.write.isEmpty = false := by
    rw [List.isEmpty_eq_false_iff, ← List.length_pos_iff]
    exact h.write_pos
  simp only [read, hne, hread, bind, Except.bind]
  rfl

end WatchExpr.Cbor
