import Cczoe.Net.CursorLaws
import Mathlib.Data.List.Induction

/-!
# Chunks written one after another

A fresh `ByteArray` takes a sequence of chunks through `write`. As long as a chunk meets free space,
the cursor stays at the block of the position and the text grows by the chunk (`Seated.write`). When
a chunk meets a full array, `addCapacity` moves the cursor to the last old block, because it assigns
`first` before `tmp` moves on to the new block. From then on the cursor is one block behind the
position (`Lagging`): the chunk overwrites the last old block, and the last bytes in front of the
position are never written (`Lagging.write`).

Which chunk sequences meet a full array is a matter of their lengths alone. `room` is the free space
after a write, as `addCapacity` computes it, and `spare_spec` says when it is zero: at a multiple of
the block size, unless every chunk so far was a multiple of at least two blocks, in which case the
growth formula has allocated one block more than needed. `writeAll_faithful_iff` puts the two
together.
-/

set_option autoImplicit false
set_option relaxedAutoImplicit false

namespace Cczoe.Net.ByteArray

open Foundations.BlockStorage

variable (junk : ℕ → ℕ → UInt8)

/-- `write(c1), …, write(cn)` in order. -/
def writeAll : List (List UInt8) → ByteArrayM Unit
  | [] => pure ()
  | chunk :: rest => do
    write junk chunk
    writeAll rest

theorem writeAll_cons {b after : ByteArray} {chunk : List UInt8} (rest : List (List UInt8))
    (hwrite : write junk chunk b = .ok () after) :
    writeAll junk (chunk :: rest) b = writeAll junk rest after := by
  simp only [writeAll, bind, EStateM.bind, hwrite]

theorem write_nil (b : ByteArray) : write junk [] b = .ok () b := if_pos rfl

/-! ### Free space -/

/-- The free space behind `size` more bytes when `free` bytes were free. -/
def room (baseSize free size : ℕ) : ℕ :=
  if size ≤ free then free - size
  else if free < size % baseSize then free + baseSize - size % baseSize
  else free - size % baseSize

/-- The free space of a fresh array after a sequence of chunks. -/
def spare (baseSize : ℕ) (chunks : List (List UInt8)) : ℕ :=
  chunks.foldl (fun free chunk ↦ room baseSize free chunk.length) baseSize

/-- Every chunk that is not empty is a multiple of at least two blocks long. -/
def WholeBlocks (baseSize : ℕ) (chunks : List (List UInt8)) : Prop :=
  ∀ chunk ∈ chunks, chunk ≠ [] → baseSize ∣ chunk.length ∧ 2 * baseSize ≤ chunk.length

/-- Assumes: the free space is at most a block and ends at a multiple of the block size. So does the
free space after one more write; it is a whole block when it was one before and the write is a
multiple of at least two blocks long. -/
theorem room_spec {baseSize free total : ℕ} (hbase : 0 < baseSize) (hle : free ≤ baseSize)
    (hdvd : baseSize ∣ total + free) (size : ℕ) :
    room baseSize free size ≤ baseSize ∧ baseSize ∣ total + size + room baseSize free size ∧
      (room baseSize free size = baseSize ↔
        free = baseSize ∧ (0 < size → baseSize ∣ size ∧ 2 * baseSize ≤ size)) := by
  have hmod := Nat.div_add_mod size baseSize
  have hlt := Nat.mod_lt size hbase
  rw [room]
  split_ifs with hroom hshort
  · refine ⟨by omega, by rwa [show total + size + (free - size) = total + free by omega], ?_⟩
    constructor
    · intro hfree
      exact ⟨by omega, fun hpos ↦ by omega⟩
    · rintro ⟨hfree, hlong⟩
      by_contra hne
      have htwo := (hlong (by omega)).2
      omega
  · refine ⟨by omega, ?_, ?_⟩
    · have hsum : total + size + (free + baseSize - size % baseSize) =
          total + free + baseSize * (size / baseSize) + baseSize := by omega
      rw [hsum]
      exact Nat.dvd_add (Nat.dvd_add hdvd (Nat.dvd_mul_right _ _)) dvd_rfl
    · constructor
      · intro hfree
        omega
      · rintro ⟨-, hlong⟩
        have hzero := Nat.mod_eq_zero_of_dvd (hlong (by omega)).1
        omega
  · refine ⟨by omega, ?_, ?_⟩
    · have hsum : total + size + (free - size % baseSize) =
          total + free + baseSize * (size / baseSize) := by omega
      rw [hsum]
      exact Nat.dvd_add hdvd (Nat.dvd_mul_right _ _)
    · constructor
      · intro hfree
        have hzero : size % baseSize = 0 := by omega
        have hmultiple : baseSize ∣ size := Nat.dvd_of_mod_eq_zero hzero
        refine ⟨by omega, fun _ ↦ ⟨hmultiple, ?_⟩⟩
        obtain ⟨count, rfl⟩ := hmultiple
        have hcount : 1 < count := by
          by_contra hsmall
          have hone : baseSize * count ≤ baseSize * 1 := Nat.mul_le_mul_left _ (by omega)
          omega
        rw [Nat.mul_comm 2]
        exact Nat.mul_le_mul_left _ hcount
      · rintro ⟨hfree, hlong⟩
        have hzero := Nat.mod_eq_zero_of_dvd (hlong (by omega)).1
        omega

/-- The free space is `free` bytes short of a multiple of the block size, and a whole block only
behind whole blocks. -/
theorem spare_spec {baseSize : ℕ} (hbase : 0 < baseSize) (chunks : List (List UInt8)) :
    spare baseSize chunks ≤ baseSize ∧
      baseSize ∣ chunks.flatten.length + spare baseSize chunks ∧
      (spare baseSize chunks = baseSize ↔ WholeBlocks baseSize chunks) := by
  induction chunks using List.reverseRecOn with
  | nil =>
    refine ⟨le_rfl, by simp [spare], fun _ ↦ ?_, fun _ ↦ rfl⟩
    intro chunk hchunk
    exact absurd hchunk List.not_mem_nil
  | append_singleton chunks chunk ih =>
    obtain ⟨hle, hdvd, hwhole⟩ := ih
    have hspare : spare baseSize (chunks ++ [chunk]) =
        room baseSize (spare baseSize chunks) chunk.length := by
      simp only [spare, List.foldl_append, List.foldl_cons, List.foldl_nil]
    have hflatten : (chunks ++ [chunk]).flatten.length = chunks.flatten.length + chunk.length := by
      simp only [List.flatten_append, List.flatten_singleton, List.length_append]
    have hsplit : WholeBlocks baseSize (chunks ++ [chunk]) ↔ WholeBlocks baseSize chunks ∧
        (chunk ≠ [] → baseSize ∣ chunk.length ∧ 2 * baseSize ≤ chunk.length) := by
      simp only [WholeBlocks, List.forall_mem_append, List.forall_mem_singleton]
    have hempty : chunk ≠ [] ↔ 0 < chunk.length := List.length_pos_iff.symm
    rw [hspare, hflatten, hsplit, ← hwhole, hempty]
    exact room_spec hbase hle hdvd chunk.length

/-- The array is full exactly at a multiple of the block size that was not reached by whole blocks
alone. -/
theorem spare_ne_zero_iff {baseSize : ℕ} (hbase : 0 < baseSize) (chunks : List (List UInt8)) :
    spare baseSize chunks ≠ 0 ↔
      (baseSize ∣ chunks.flatten.length → WholeBlocks baseSize chunks) := by
  obtain ⟨hle, hdvd, hwhole⟩ := spare_spec hbase chunks
  rw [← hwhole]
  constructor
  · intro hspare htotal
    have hmultiple := (Nat.dvd_add_right htotal).mp hdvd
    exact le_antisymm hle (Nat.le_of_dvd (by omega) hmultiple)
  · intro himp hspare
    rw [hspare, Nat.add_zero] at hdvd
    have hfull := himp hdvd
    omega

/-- No chunk that is not empty meets a full array, when `free` bytes are free in front of the
first one. -/
def MeetsRoom (baseSize : ℕ) : ℕ → List (List UInt8) → Prop
  | _, [] => True
  | free, chunk :: rest =>
    (chunk ≠ [] → free ≠ 0) ∧ MeetsRoom baseSize (room baseSize free chunk.length) rest

theorem meetsRoom_iff (baseSize : ℕ) (chunks : List (List UInt8)) :
    ∀ free, MeetsRoom baseSize free chunks ↔ ∀ before chunk after,
      chunks = before ++ chunk :: after → chunk ≠ [] →
        before.foldl (fun free chunk ↦ room baseSize free chunk.length) free ≠ 0 := by
  induction chunks with
  | nil =>
    intro free
    simp [MeetsRoom]
  | cons first rest ih =>
    intro free
    rw [MeetsRoom, ih]
    constructor
    · rintro ⟨hfirst, hrest⟩ before chunk after hsplit hchunk
      cases before with
      | nil =>
        obtain ⟨rfl, -⟩ := List.cons_eq_cons.mp hsplit
        exact hfirst hchunk
      | cons other others =>
        obtain ⟨rfl, htail⟩ := List.cons_eq_cons.mp hsplit
        exact hrest others chunk after htail hchunk
    · intro hall
      refine ⟨hall [] first rest rfl, fun before chunk after hsplit hchunk ↦ ?_⟩
      exact hall (first :: before) chunk after (by rw [hsplit]; rfl) hchunk

/-- The free space after a write is `room`. -/
theorem Written.getCapacity_eq {b after : ByteArray} {buf : List UInt8} {offset : ℕ}
    (hwritten : Written junk b buf offset after) (hshaped : Shaped b) :
    after.getCapacity = room b.baseSize b.getCapacity buf.length := by
  have hcapacity := hshaped.capacity_eq
  have hposition := hshaped.position_le
  have hmod := Nat.div_add_mod buf.length b.baseSize
  have hlt := Nat.mod_lt buf.length hshaped.baseSize_pos
  rw [getCapacity, hwritten.shaped.capacity_eq, hwritten.baseSize_eq, hwritten.length_eq,
    hwritten.position_eq, Nat.mul_add, ← hcapacity, growth, room, getCapacity]
  split_ifs with hroom hshort
  · omega
  · rw [Nat.mul_add, Nat.mul_one]
    omega
  · rw [Nat.add_zero]
    omega

/-! ### Seated writes -/

/-- The cursor is at the block of the position, and the text up to the position, which is its end,
is `written`. -/
structure Seated (b : ByteArray) (written : List UInt8) : Prop where
  shaped : Shaped b
  curr_eq : b.curr = seat b.baseSize b.root.length b.position
  position_eq : b.position = written.length
  size_eq : b.size = written.length
  text_take : b.text.take written.length = written

theorem seated_ofBaseSize {baseSize : ℕ} (hbase : 0 < baseSize) :
    Seated (ofBaseSize junk baseSize) [] where
  shaped := by
    refine ⟨⟨⟨hbase, (Nat.mul_one _).symm⟩, Nat.zero_le _⟩, List.cons_ne_nil _ _, ?_⟩
    intro node hnode
    rw [List.mem_singleton.mp hnode]
    simp only [Node.size, Node.alloc, List.length_map, List.length_range, ofBaseSize]
  curr_eq := by
    simp only [ofBaseSize, seat, List.length_singleton, Nat.mul_one, Nat.zero_div]
    rw [if_neg (by omega)]
  position_eq := rfl
  size_eq := rfl
  text_take := rfl

/-- Assumes: a chunk, empty or met by free space. `write` appends it to the text. -/
theorem Seated.write {b : ByteArray} {written chunk : List UInt8} (hseated : Seated b written)
    (hroom : chunk ≠ [] → b.getCapacity ≠ 0) :
    ∃ after, write junk chunk b = .ok () after ∧ Seated after (written ++ chunk) ∧
      after.baseSize = b.baseSize ∧ after.endian = b.endian ∧
      after.getCapacity = room b.baseSize b.getCapacity chunk.length := by
  by_cases hchunk : chunk = []
  · subst hchunk
    refine ⟨b, write_nil junk b, ?_, rfl, rfl, ?_⟩
    · rwa [List.append_nil]
    · simp [room]
  · have hshaped := hseated.shaped
    have hfree := hroom hchunk
    have hcapacity := hshaped.capacity_eq
    rw [getCapacity] at hfree
    obtain ⟨after, hwrite, hwritten⟩ := write_eq junk hshaped hchunk
      (by rw [if_neg (fun h ↦ hroom hchunk h.1), hseated.curr_eq, seat, if_neg (by omega)]) rfl
      (le_growth chunk.length hshaped.toCounted)
    refine ⟨after, hwrite, ⟨hwritten.shaped, ?_, ?_, ?_, ?_⟩, hwritten.baseSize_eq,
      hwritten.endian_eq, hwritten.getCapacity_eq junk hshaped⟩
    · rw [hwritten.curr_eq, hwritten.baseSize_eq, hwritten.position_eq]
    · rw [hwritten.position_eq, hseated.position_eq, List.length_append]
    · rw [hwritten.size_eq, hseated.size_eq, hseated.position_eq, List.length_append]
      omega
    · have hinside : written.length ≤ b.text.length := by
        rw [hshaped.length_text, ← hseated.position_eq]
        exact hshaped.position_le
      rw [hwritten.text_eq, hseated.position_eq, List.length_append, grown, bytesOf_append,
        ← text_eq_bytesOf, take_overwrite _ (by rw [List.length_append]; omega),
        List.take_append_of_le_length hinside, hseated.text_take]

/-- Assumes: no chunk meets a full array. The text is extended by all chunks in order. -/
theorem Seated.writeAll {baseSize : ℕ} (chunks : List (List UInt8)) :
    ∀ (b : ByteArray) (written : List UInt8), Seated b written → b.baseSize = baseSize →
      MeetsRoom baseSize b.getCapacity chunks →
      ∃ after, writeAll junk chunks b = .ok () after ∧
        Seated after (written ++ chunks.flatten) := by
  induction chunks with
  | nil =>
    intro b written hseated _ _
    exact ⟨b, rfl, by rwa [List.flatten_nil, List.append_nil]⟩
  | cons chunk rest ih =>
    intro b written hseated hbase hroom
    obtain ⟨after, hwrite, hafter, hkept, -, hfree⟩ := hseated.write junk hroom.1
    obtain ⟨final, hrest, hfinal⟩ := ih after (written ++ chunk) hafter (hkept.trans hbase) (by
      rw [hfree, hbase]
      exact hroom.2)
    refine ⟨final, (writeAll_cons junk rest hwrite).trans hrest, ?_⟩
    rwa [List.flatten_cons, ← List.append_assoc]

/-! ### Lagging writes -/

/-- Byte `k` behind `start` blocks is the junk of its own block. -/
theorem getElem?_freshBlocks {baseSize : ℕ} (hbase : 0 < baseSize) (count : ℕ) :
    ∀ start k, k < baseSize * count →
      (bytesOf (freshBlocks junk baseSize start count))[k]? =
        some (junk (start + k / baseSize) (k % baseSize)) := by
  induction count with
  | zero =>
    intro start k hk
    simp at hk
  | succ count ih =>
    intro start k hk
    have hcons : freshBlocks junk baseSize start (count + 1) =
        Node.alloc (junk start) baseSize :: freshBlocks junk baseSize (start + 1) count := by
      rw [freshBlocks, List.range'_succ, List.map_cons, freshBlocks]
    have hlength : (Node.alloc (junk start) baseSize).ptr.length = baseSize := by
      simp only [Node.alloc, List.length_map, List.length_range]
    rw [hcons, bytesOf_cons]
    by_cases hfirst : k < baseSize
    · rw [List.getElem?_append_left (by omega), Nat.div_eq_of_lt hfirst, Nat.mod_eq_of_lt hfirst]
      simp [Node.alloc, hfirst]
    · have hback : k = k - baseSize + baseSize := by omega
      rw [List.getElem?_append_right (by omega), hlength, ih (start + 1) (k - baseSize) (by
        rw [Nat.mul_succ] at hk
        omega)]
      conv_rhs => rw [hback, Nat.add_div_right _ hbase, Nat.add_mod_right]
      congr 2
      omega

/-- The cursor is one block behind the position, and the bytes from there on that lie behind `start`
were never written. -/
structure Lagging (b : ByteArray) (start : ℕ) : Prop where
  shaped : Shaped b
  baseSize_le : b.baseSize ≤ start
  start_le : start ≤ b.position
  curr_eq : b.getCapacity ≠ 0 → b.curr = some ((b.position - b.baseSize) / b.baseSize)
  untouched : ∀ i, start ≤ i → b.position ≤ i + b.baseSize → i < b.capacity →
    b.text[i]? = some (junk (i / b.baseSize) (i % b.baseSize))

/-- A seated array without free space begins to lag: the next chunk goes to its last block. -/
theorem Seated.lagging {b : ByteArray} {written : List UInt8} (hseated : Seated b written)
    (hfull : b.getCapacity = 0) : Lagging junk b b.position where
  shaped := hseated.shaped
  baseSize_le := by
    have hbase := hseated.shaped.baseSize_le
    rw [getCapacity] at hfull
    omega
  start_le := le_rfl
  curr_eq := fun hfree ↦ absurd hfull hfree
  untouched := by
    intro i hstart _ hi
    rw [getCapacity] at hfull
    omega

/-- A lagging array takes every chunk without a fault, and goes on lagging behind the same start. -/
theorem Lagging.write {b : ByteArray} {start : ℕ} (hlagging : Lagging junk b start)
    (chunk : List UInt8) :
    ∃ after, ByteArray.write junk chunk b = .ok () after ∧ Lagging junk after start ∧
      after.position = b.position + chunk.length := by
  by_cases hchunk : chunk = []
  · subst hchunk
    exact ⟨b, write_nil junk b, hlagging, rfl⟩
  · obtain ⟨hshaped, hbase, hstart, hcurr, huntouched⟩ := hlagging
    have hcapacity := hshaped.capacity_eq
    have hfits := le_growth chunk.length hshaped.toCounted
    have hroot := List.length_pos_of_ne_nil hshaped.root_ne
    have hback : b.position = b.position - b.baseSize + b.baseSize := by omega
    have hcursor : (if b.getCapacity = 0 ∧ 0 < chunk.length then some (b.root.length - 1)
        else b.curr) = some ((b.position - b.baseSize) / b.baseSize) := by
      split_ifs with hfull
      · have hend : b.position - b.baseSize = b.baseSize * (b.root.length - 1) := by
          rw [getCapacity] at hfull
          rw [Nat.mul_sub, Nat.mul_one, ← hcapacity]
          have hposition := hshaped.position_le
          omega
        rw [hend, Nat.mul_div_cancel_left _ hshaped.baseSize_pos]
      · exact hcurr fun hzero ↦ hfull ⟨hzero, List.length_pos_of_ne_nil hchunk⟩
    obtain ⟨after, hwrite, hwritten⟩ := write_eq junk hshaped hchunk hcursor
      (by conv_lhs => rw [hback, Nat.add_mod_right]) (by omega)
    have hafter := hwritten.shaped.capacity_eq
    rw [hwritten.baseSize_eq, hwritten.length_eq] at hafter
    refine ⟨after, hwrite, ⟨hwritten.shaped, ?_, ?_, ?_, ?_⟩, hwritten.position_eq⟩
    · rwa [hwritten.baseSize_eq]
    · rw [hwritten.position_eq]
      omega
    · intro _
      have hbehind : b.position - b.baseSize + chunk.length =
          after.position - b.baseSize := by
        rw [hwritten.position_eq]
        omega
      have hpos := hshaped.baseSize_pos
      rw [hwritten.curr_eq, hbehind, seat, hwritten.baseSize_eq, hwritten.length_eq,
        if_neg (by rw [hwritten.position_eq]; omega)]
    · intro i hi hbehind hinside
      rw [hwritten.baseSize_eq, hwritten.position_eq] at hbehind
      rw [hafter] at hinside
      have hlength : (bytesOf (grown junk b chunk.length)).length =
          b.baseSize * (b.root.length + growth b chunk.length) := by
        rw [length_bytesOf (size_of_mem_grown junk hshaped _), length_grown]
      rw [hwritten.text_eq, hwritten.baseSize_eq,
        getElem?_overwrite_of_le (by omega) (by omega), grown, bytesOf_append]
      have htext : (bytesOf b.root).length = b.capacity := hshaped.length_text
      by_cases hold : i < b.capacity
      · rw [List.getElem?_append_left (by omega)]
        exact huntouched i hi (by omega) hold
      · have hshift : i = i - b.capacity + b.baseSize * b.root.length := by omega
        rw [List.getElem?_append_right (by omega), htext,
          getElem?_freshBlocks junk hshaped.baseSize_pos _ _ _ (by
            rw [Nat.mul_add, ← hcapacity] at hinside
            omega)]
        conv_rhs => rw [hshift, Nat.add_mul_div_left _ _ hshaped.baseSize_pos,
          Nat.add_mul_mod_self_left]
        rw [Nat.add_comm]

theorem Lagging.writeAll {start : ℕ} (chunks : List (List UInt8)) :
    ∀ b : ByteArray, Lagging junk b start →
      ∃ after, writeAll junk chunks b = .ok () after ∧ Lagging junk after start ∧
        after.position = b.position + chunks.flatten.length := by
  induction chunks with
  | nil =>
    intro b hlagging
    exact ⟨b, rfl, hlagging, rfl⟩
  | cons chunk rest ih =>
    intro b hlagging
    obtain ⟨after, hwrite, hafter, hposition⟩ := hlagging.write junk chunk
    obtain ⟨final, hrest, hfinal, hstop⟩ := ih after hafter
    refine ⟨final, (writeAll_cons junk rest hwrite).trans hrest, hfinal, ?_⟩
    rw [hstop, hposition, List.flatten_cons, List.length_append, Nat.add_assoc]

/-- Assumes: some chunk that is not empty meets a full array. The chunks are taken without a fault,
and the array ends lagging behind a start in front of its position. -/
theorem Seated.writeAll_lagging {baseSize : ℕ} (chunks : List (List UInt8)) :
    ∀ (b : ByteArray) (written : List UInt8), Seated b written → b.baseSize = baseSize →
      ¬ MeetsRoom baseSize b.getCapacity chunks →
      ∃ after start, ByteArray.writeAll junk chunks b = .ok () after ∧ Lagging junk after start ∧
        start < after.position ∧ after.position = written.length + chunks.flatten.length := by
  induction chunks with
  | nil =>
    intro b written _ _ hroom
    exact absurd trivial hroom
  | cons chunk rest ih =>
    intro b written hseated hbase hroom
    by_cases hmeets : chunk ≠ [] → b.getCapacity ≠ 0
    · obtain ⟨after, hwrite, hafter, hkept, -, hfree⟩ := hseated.write junk hmeets
      have hlater : ¬ MeetsRoom baseSize after.getCapacity rest := by
        rw [hfree, hbase]
        exact fun hrest ↦ hroom ⟨hmeets, hrest⟩
      obtain ⟨final, start, hrest, hfinal, hstart, hstop⟩ :=
        ih after (written ++ chunk) hafter (hkept.trans hbase) hlater
      refine ⟨final, start, (writeAll_cons junk rest hwrite).trans hrest, hfinal, hstart, ?_⟩
      rw [hstop, List.flatten_cons, List.length_append, List.length_append, Nat.add_assoc]
    · -- this chunk meets the full array: the lag begins here
      obtain ⟨hchunk, hfull⟩ := Classical.not_imp.mp hmeets
      obtain ⟨final, hwrites, hfinal, hstop⟩ :=
        (hseated.lagging junk (not_not.mp hfull)).writeAll junk (chunk :: rest)
      have hlength := List.length_pos_of_ne_nil hchunk
      rw [List.flatten_cons, List.length_append] at hstop
      refine ⟨final, b.position, hwrites, hfinal, by omega, ?_⟩
      rw [hstop, hseated.position_eq, List.flatten_cons, List.length_append]

/-! ### The text after all chunks -/

/-- The array holds the chunks: position and size are their total length, and the text up to there
is their concatenation. -/
def Holds (chunks : List (List UInt8)) (b : ByteArray) : Prop :=
  b.position = chunks.flatten.length ∧ b.size = chunks.flatten.length ∧
    b.text.take b.size = chunks.flatten

/-- Whatever fresh memory holds, a fresh array takes the chunks without a fault and then holds
them. -/
def Faithful (baseSize : ℕ) (chunks : List (List UInt8)) : Prop :=
  ∀ junk, ∃ after, writeAll junk chunks (ofBaseSize junk baseSize) = .ok () after ∧
    Holds chunks after

/-- A chunk that is not empty and begins at a multiple of the block size comes behind whole blocks
only. -/
def BoundaryBehindWholeBlocks (baseSize : ℕ) (chunks : List (List UInt8)) : Prop :=
  ∀ before chunk after, chunks = before ++ chunk :: after → chunk ≠ [] →
    baseSize ∣ before.flatten.length → WholeBlocks baseSize before

theorem meetsRoom_baseSize_iff {baseSize : ℕ} (hbase : 0 < baseSize) (chunks : List (List UInt8)) :
    MeetsRoom baseSize baseSize chunks ↔ BoundaryBehindWholeBlocks baseSize chunks := by
  rw [meetsRoom_iff]
  constructor
  · intro hall before chunk after hsplit hchunk
    exact (spare_ne_zero_iff hbase before).mp (hall before chunk after hsplit hchunk)
  · intro hall before chunk after hsplit hchunk
    exact (spare_ne_zero_iff hbase before).mpr (hall before chunk after hsplit hchunk)

/-- The last byte in front of the position of a lagging array is whatever the fresh memory held. -/
theorem Lagging.not_holds {b : ByteArray} {start : ℕ} {chunks : List (List UInt8)} {filler : UInt8}
    (hlagging : Lagging (fun _ _ ↦ filler) b start) (hstart : start < b.position)
    (hfiller : chunks.flatten.getLast? ≠ some filler) : ¬ Holds chunks b := by
  rintro ⟨hposition, hsize, htext⟩
  have hbase := hlagging.shaped.baseSize_pos
  have hinside := hlagging.shaped.position_le
  have hlast := hlagging.untouched (b.position - 1) (by omega) (by omega) (by omega)
  have htaken : chunks.flatten[b.position - 1]? = some filler := by
    rw [← htext, List.getElem?_take_of_lt (by omega), hlast]
  rw [hposition, ← List.getLast?_eq_getElem?] at htaken
  exact hfiller htaken

/-- Spec: after `ByteArray(baseSize)` and `write(c1), …, write(cn)`, the array holds the chunks
whatever fresh memory held, exactly when every chunk that begins at a block boundary comes behind
whole blocks only. Assumes: `baseSize ≥ 1`. -/
theorem writeAll_faithful_iff (baseSize : ℕ) (hbase : 1 ≤ baseSize) (chunks : List (List UInt8)) :
    Faithful baseSize chunks ↔ BoundaryBehindWholeBlocks baseSize chunks := by
  rw [← meetsRoom_baseSize_iff hbase]
  constructor
  · intro hfaithful
    by_contra hroom
    -- a filler that differs from the last byte written shows that this byte was lost
    obtain ⟨filler, hfiller⟩ : ∃ filler : UInt8, chunks.flatten.getLast? ≠ some filler := by
      cases chunks.flatten.getLast? with
      | none => exact ⟨0, by simp⟩
      | some last => exact ⟨last + 1, by simp⟩
    obtain ⟨after, start, hwrites, hlagging, hstart, -⟩ :=
      (seated_ofBaseSize (fun _ _ ↦ filler) hbase).writeAll_lagging _ chunks _ _ rfl hroom
    obtain ⟨other, hother, hholds⟩ := hfaithful fun _ _ ↦ filler
    rw [hwrites] at hother
    cases hother
    exact hlagging.not_holds hstart hfiller hholds
  · intro hroom junk
    obtain ⟨after, hwrites, hseated⟩ :=
      (seated_ofBaseSize junk hbase).writeAll junk chunks _ _ rfl hroom
    rw [List.nil_append] at hseated
    exact ⟨after, hwrites, hseated.position_eq, hseated.size_eq, by
      rw [hseated.size_eq, hseated.text_take]⟩

/-- Two chunks that cross a block boundary are kept. -/
theorem writeAll_faithful_across_boundary :
    Faithful 4 [[1, 2, 3], [4, 5]] ∧ BoundaryBehindWholeBlocks 4 [[1, 2, 3], [4, 5]] := by
  have hboundary : BoundaryBehindWholeBlocks 4 [[1, 2, 3], [4, 5]] := by
    rw [← meetsRoom_baseSize_iff (by decide)]
    simp [MeetsRoom, room]
  exact ⟨(writeAll_faithful_iff 4 (by decide) _).mpr hboundary, hboundary⟩

/-- A chunk that fills the only block and one more byte: the byte goes to the front of the full
block, and its own place keeps what the fresh memory held. -/
theorem writeAll_behind_full_block :
    (∃ after, writeAll (fun _ _ ↦ 0) [[1, 2, 3, 4], [5]] (ofBaseSize (fun _ _ ↦ 0) 4) =
        .ok () after ∧ after.text.take after.size = [5, 2, 3, 4, 0]) ∧
      ¬ Faithful 4 [[1, 2, 3, 4], [5]] := by
  refine ⟨⟨_, rfl, by decide⟩, fun hfaithful ↦ ?_⟩
  obtain ⟨after, hwrites, -, -, htext⟩ := hfaithful fun _ _ ↦ 0
  cases hwrites
  revert htext
  decide

end Cczoe.Net.ByteArray
