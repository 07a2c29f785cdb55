import Miyabi.Scripts.Font2bin

namespace Miyabi.Scripts.Font2bin

open Miyabi.Base.Transition Miyabi.Base.Python

-- A line that hex_to_bin stores has a code from 0 on, and sixteen bytes.
def HexFits (decimal : Char → Option (Fin 10)) (line : List Char) : Prop :=
  ∀ code bytes, hexGlyph decimal line = some (some (code, bytes)) → 0 ≤ code ∧ bytes.length = 16

-- The rows that an ENDCHAR line stores were read with the encoding that it stores them for.
def RowsFit (s : BdfState) : Prop :=
  s.inBitmap = true → ∀ encoding, s.currentEncoding = some encoding → 0 ≤ encoding → encoding < 256 →
    ∀ rowIdx row, (s.bitmapRows.take 16)[rowIdx]? = some row → rowCell rowIdx row ≠ none →
      row.1 = some encoding

def BdfFits (s : BdfState) (line : List Char) : Prop := strip line = "ENDCHAR".toList → RowsFit s

theorem shaped_blank : Shaped blank := by
  refine ⟨List.length_replicate, fun c row hrow => ⟨Cell.zero, ?_, Or.inl rfl⟩⟩
  have := c.isLt
  rw [blank, List.getElem?_replicate, if_pos (by omega)]

section Hex

variable {decimal : Char → Option (Fin 10)} {line : List Char} {data data' : List Cell} {code : ℤ}
  {bytes : List (BitVec 8)}

theorem hexFields_some {first raw : List Char}
    (h : hexFields decimal first raw = some (some (code, bytes))) :
    code < 256 ∧ raw.length = 32 ∧ fromHex raw = some bytes := by
  rw [hexFields] at h
  split at h
  · cases h
  · split at h
    · cases h
    · next hcode =>
      split at h
      · cases h
      · next hlength =>
        obtain ⟨bytes', hbytes, heq⟩ := Option.map_eq_some_iff.mp h
        cases heq
        exact ⟨by omega, not_not.mp hlength, hbytes⟩

-- The text of the bytes ends the line, and no space does.
theorem hexGlyph_some (h : hexGlyph decimal line = some (some (code, bytes))) :
    code < 256 ∧ bytes ≠ [] := by
  simp only [hexGlyph] at h
  split at h
  · cases h
  · next hne =>
    split at h
    · next first raw hsplit =>
      obtain ⟨hcode, hlength, hbytes⟩ := hexFields_some h
      have hraw : raw ≠ [] := by
        rintro rfl
        cases hlength
      have hjoin : [':'].intercalate ((strip line).splitOn ':') = strip line :=
        List.intercalate_splitOn ':'
      rw [hsplit] at hjoin
      have hline : first ++ ':' :: raw = strip line := by simpa using hjoin
      have hlast := strip_last hne
      simp only [← hline] at hlast
      rw [List.getLast_append_of_ne_nil _ (List.cons_ne_nil ':' raw), List.getLast_cons hraw] at hlast
      exact ⟨hcode, fromHex_ne_nil hraw hlast hbytes⟩
    · cases h

theorem glyphCells_length : (glyphCells code bytes).length = bytes.length := List.length_mapIdx

theorem hexLine_glyph (h : hexGlyph decimal line = some (some (code, bytes))) :
    hexLine decimal data line =
      some (sliceAssign data (code * 16) (code * 16 + 16) (glyphCells code bytes)) := by
  rw [hexLine, h]

-- Where the slice of a code lies when it has the room of a glyph: a negative code counts from the end.
theorem slice_placed {new : List Cell} {slot : ℕ} (hlength : data.length = 256 * 16)
    (hslot : slot < 256) (hcode : code = slot ∨ code = slot - 256 ∧ code ≠ -1)
    (hnew : new.length = 16) : sliceAssign data (code * 16) (code * 16 + 16) new =
      data.take (slot * 16) ++ new ++ data.drop (slot * 16 + new.length) := by
  have hstart : sliceIndex data.length (code * 16) = slot * 16 := by
    rw [sliceIndex]
    split <;> omega
  have hstop : sliceIndex data.length (code * 16 + 16) = slot * 16 + 16 := by
    rw [sliceIndex]
    split <;> omega
  have hmax : max (slot * 16) (slot * 16 + 16) = slot * 16 + 16 := by omega
  simp only [sliceAssign, hstart, hstop, hmax, hnew]

theorem glyphCells_get (code : ℤ) {row : ℕ} (h : row < bytes.length) :
    ∃ cell, (glyphCells code bytes)[row]? = some cell ∧ cell.origin = some (some code, row) := by
  refine ⟨⟨bytes[row], some (some code, row)⟩, ?_, rfl⟩
  rw [glyphCells, List.getElem?_mapIdx, List.getElem?_eq_getElem h, Option.map_some]

-- A whole glyph in the slot of its code leaves the shape.
theorem shaped_stored (h : Shaped data) (hlow : 0 ≤ code) (hhigh : code < 256)
    (hbytes : bytes.length = 16) :
    Shaped (sliceAssign data (code * 16) (code * 16 + 16) (glyphCells code bytes)) := by
  have hcells : (glyphCells code bytes).length = 16 := glyphCells_length.trans hbytes
  obtain ⟨slot, rfl⟩ := Int.eq_ofNat_of_zero_le hlow
  have hslot : slot < 256 := by omega
  have hlength := h.length
  have hroom : slot * 16 ≤ data.length := by omega
  rw [slice_placed hlength hslot (Or.inl rfl) hcells]
  refine ⟨?_, fun c row hrow => ?_⟩
  · rw [List.length_append, List.length_append, List.length_take, List.length_drop, hcells]
    omega
  · by_cases hsame : c.toNat = slot
    · obtain ⟨cell, hcell, horigin⟩ := glyphCells_get slot (show row < bytes.length by omega)
      refine ⟨cell, ?_, Or.inr ?_⟩
      · rw [hsame, splice_inside hroom (by omega)]
        exact hcell
      · rw [horigin, hsame]
    · obtain ⟨cell, hcell, horigin⟩ := h.glyph c row hrow
      refine ⟨cell, ?_, horigin⟩
      rw [splice_outside hroom (by omega)]
      exact hcell

-- Any other one breaks it: it changes the length, or it lands in the slot of another code.
theorem not_shaped_stored (h : Shaped data) (hhigh : code < 256) (hne : bytes ≠ [])
    (hmisfit : ¬(0 ≤ code ∧ bytes.length = 16)) :
    ¬Shaped (sliceAssign data (code * 16) (code * 16 + 16) (glyphCells code bytes)) := by
  intro hshaped
  have hpos : 0 < bytes.length := List.length_pos_of_ne_nil hne
  have hcells : (glyphCells code bytes).length = bytes.length := glyphCells_length
  have hlength := h.length
  have hkept := hshaped.length
  have hback : -256 ≤ code ∧ code ≤ -2 ∧ bytes.length = 16 := by
    rw [sliceAssign_length, hcells, hlength, sliceIndex, sliceIndex] at hkept
    split at hkept <;> split at hkept <;> omega
  obtain ⟨slot, hslot⟩ := Int.eq_ofNat_of_zero_le (show 0 ≤ code + 256 by omega)
  have hinside : slot < 256 := by omega
  have hplace : code = slot ∨ code = slot - 256 ∧ code ≠ -1 := Or.inr ⟨by omega, by omega⟩
  have hroom : slot * 16 ≤ data.length := by omega
  have hnat : (BitVec.ofNat 8 slot).toNat = slot := by
    rw [BitVec.toNat_ofNat, Nat.mod_eq_of_lt (by omega)]
  obtain ⟨cell, hcell, horigin⟩ := glyphCells_get code hpos
  obtain ⟨cell', hcell', horigin'⟩ := hshaped.glyph (BitVec.ofNat 8 slot) 0 (by omega)
  rw [slice_placed hlength hinside hplace (hcells.trans hback.2.2), hnat,
    splice_inside hroom (by omega), hcell] at hcell'
  cases hcell'
  rcases horigin' with hzero | hslot'
  · rw [hzero] at horigin
    cases horigin
  · rw [horigin, hnat] at hslot'
    simp only [Option.some.injEq, Prod.mk.injEq] at hslot'
    omega

-- Every line up to here fits exactly when the blob has its shape after each of them.
theorem hexToBin_shaped_iff (lines : List (List Char)) :
    (∀ front back data, lines = front ++ back → hexToBin decimal front = some data → Shaped data) ↔
      PermittedRun (hexLine decimal) (fun _ line => HexFits decimal line) blank lines := by
  refine prefixes_iff (fun _ h => h) (fun data line data' h _ hfits hs => ?_)
    (fun data line h _ hmisfit => ?_) shaped_blank (permittedRun_true blank lines)
  · rw [hexLine] at hs
    split at hs
    · cases hs
    · cases hs
      exact h
    · next code bytes hglyph =>
      cases hs
      obtain ⟨hlow, hbytes⟩ := hfits code bytes hglyph
      exact shaped_stored h hlow (hexGlyph_some hglyph).1 hbytes
  · simp only [HexFits, not_forall] at hmisfit
    obtain ⟨code, bytes, hglyph, hmisfit⟩ := hmisfit
    obtain ⟨hhigh, hne⟩ := hexGlyph_some hglyph
    exact ⟨_, hexLine_glyph hglyph, not_shaped_stored h hhigh hne hmisfit⟩

end Hex

section Bdf

variable {decimal : Char → Option (Fin 10)} {s : BdfState} {line : List Char} {data : List Cell}
  {rows : List (Option ℤ × List Char)} {encoding : ℤ}

theorem storeRows_length (rowIdx : ℕ) :
    (storeRows encoding rowIdx rows data).length = data.length := by
  induction rows generalizing rowIdx data with
  | nil => rfl
  | cons row rest ih =>
    rw [storeRows, ih]
    split
    · exact List.length_set
    · rfl

theorem storeRows_outside {rowIdx i : ℕ}
    (h : i < encoding.toNat * 16 + rowIdx ∨ encoding.toNat * 16 + rowIdx + rows.length ≤ i) :
    (storeRows encoding rowIdx rows data)[i]? = data[i]? := by
  induction rows generalizing rowIdx data with
  | nil => rfl
  | cons row rest ih =>
    rw [List.length_cons] at h
    rw [storeRows, ih (by omega)]
    split
    · exact List.getElem?_set_ne (by omega)
    · rfl

-- A row with a byte is stored, and one without leaves its cell.
theorem storeRows_inside {rowIdx i : ℕ} {row : Option ℤ × List Char} (hrow : rows[i]? = some row)
    (hroom : encoding.toNat * 16 + rowIdx + i < data.length) :
    (storeRows encoding rowIdx rows data)[encoding.toNat * 16 + rowIdx + i]? =
      ((rowCell (rowIdx + i) row).or data[encoding.toNat * 16 + rowIdx + i]?) := by
  induction rows generalizing rowIdx i data with
  | nil => cases hrow
  | cons first rest ih =>
    cases i with
    | zero =>
      cases hrow
      rw [storeRows, storeRows_outside (by omega)]
      cases rowCell rowIdx row with
      | none => simp only [Nat.add_zero, Option.none_or]
      | some cell =>
        simp only [Nat.add_zero, Option.some_or]
        exact List.getElem?_set_self hroom
    | succ i =>
      have hindex : encoding.toNat * 16 + rowIdx + (i + 1) = encoding.toNat * 16 + (rowIdx + 1) + i := by
        omega
      have hcount : rowIdx + (i + 1) = rowIdx + 1 + i := by omega
      have hrest : rest[i]? = some row := hrow
      rw [storeRows, hindex, hcount]
      cases rowCell rowIdx first with
      | none => exact ih hrest (show _ < data.length by omega)
      | some cell =>
        have hset : (data.set (encoding.toNat * 16 + rowIdx) cell)[encoding.toNat * 16 + (rowIdx + 1) + i]? =
            data[encoding.toNat * 16 + (rowIdx + 1) + i]? := List.getElem?_set_ne (by omega)
        rw [← hset]
        exact ih hrest (by rw [List.length_set]; omega)

theorem storeRows_slot {rowIdx : ℕ} {row : Option ℤ × List Char} (hrow : rows[rowIdx]? = some row)
    (hroom : encoding.toNat * 16 + rowIdx < data.length) :
    (storeRows encoding 0 rows data)[encoding.toNat * 16 + rowIdx]? =
      (rowCell rowIdx row).or data[encoding.toNat * 16 + rowIdx]? := by
  have hinside : (storeRows encoding 0 rows data)[encoding.toNat * 16 + 0 + rowIdx]? =
      (rowCell (0 + rowIdx) row).or data[encoding.toNat * 16 + 0 + rowIdx]? := storeRows_inside hrow hroom
  rwa [Nat.add_zero, Nat.zero_add] at hinside

theorem rowCell_origin {rowIdx : ℕ} {row : Option ℤ × List Char} {cell : Cell}
    (h : rowCell rowIdx row = some cell) : cell.origin = some (row.1, rowIdx) := by
  rw [rowCell] at h
  split at h
  · cases h
    rfl
  · cases h

-- The rows of a bitmap in the slot of the encoding.
theorem storeRows_shaped_iff (h : Shaped data) (hlow : 0 ≤ encoding) (hhigh : encoding < 256)
    (hrows : rows.length ≤ 16) :
    Shaped (storeRows encoding 0 rows data) ↔
      ∀ rowIdx row, rows[rowIdx]? = some row → rowCell rowIdx row ≠ none → row.1 = some encoding := by
  have hlength := h.length
  have hnat : (BitVec.ofNat 8 encoding.toNat).toNat = encoding.toNat := by
    rw [BitVec.toNat_ofNat, Nat.mod_eq_of_lt (by omega)]
  have hcode : ((encoding.toNat : ℕ) : ℤ) = encoding := by omega
  constructor
  · intro hshaped rowIdx row hrow hsome
    obtain ⟨cell, hcell⟩ := Option.ne_none_iff_exists'.mp hsome
    have hidx : rowIdx < rows.length := (List.getElem?_eq_some_iff.mp hrow).1
    have hstored := storeRows_slot hrow (show encoding.toNat * 16 + rowIdx < data.length by omega)
    obtain ⟨cell', hcell', horigin⟩ := hshaped.glyph (BitVec.ofNat 8 encoding.toNat) rowIdx (by omega)
    rw [hnat] at hcell' horigin
    rw [hcode] at horigin
    rw [hcell, Option.some_or, hcell'] at hstored
    cases hstored
    rcases horigin with hzero | hslot
    · rw [hzero] at hcell
      cases rowCell_origin hcell
    · rw [rowCell_origin hcell] at hslot
      simpa using hslot
  · intro hfits
    refine ⟨(storeRows_length 0).trans hlength, fun c rowIdx hrow => ?_⟩
    obtain ⟨old, hold, horigin⟩ := h.glyph c rowIdx hrow
    by_cases hslot : c.toNat = encoding.toNat
    · by_cases hidx : rowIdx < rows.length
      · have hget := List.getElem?_eq_getElem hidx
        have hstored := storeRows_slot hget (show encoding.toNat * 16 + rowIdx < data.length by omega)
        rw [← hslot, hold] at hstored
        cases hcell : rowCell rowIdx rows[rowIdx] with
        | none =>
          rw [hcell, Option.none_or] at hstored
          exact ⟨old, hstored, horigin⟩
        | some cell =>
          rw [hcell, Option.some_or] at hstored
          have hcode := hfits rowIdx rows[rowIdx] hget (by rw [hcell]; exact Option.some_ne_none cell)
          refine ⟨cell, hstored, Or.inr ?_⟩
          rw [rowCell_origin hcell, hcode, hslot]
          congr
          omega
      · refine ⟨old, ?_, horigin⟩
        rw [storeRows_outside (by omega)]
        exact hold
    · refine ⟨old, ?_, horigin⟩
      rw [storeRows_outside (by omega)]
      exact hold

theorem endChar_shaped_iff (h : Shaped s.data) : Shaped (endChar s) ↔ RowsFit s := by
  rw [endChar]
  cases hcode : s.currentEncoding with
  | none =>
    refine iff_of_true h fun _ encoding hsome => ?_
    rw [hcode] at hsome
    cases hsome
  | some encoding =>
    have hrows : (s.bitmapRows.take 16).length ≤ 16 := List.length_take_le _ _
    by_cases hcond : s.inBitmap = true ∧ 0 ≤ encoding ∧ encoding < 256
    · obtain ⟨hbitmap, hlow, hhigh⟩ := hcond
      simp only [hbitmap, hlow, hhigh, and_self, if_true]
      rw [storeRows_shaped_iff h hlow hhigh hrows]
      constructor
      · intro hfits _ encoding' hsome _ _
        cases hcode.symm.trans hsome
        exact hfits
      · intro hfits
        exact hfits hbitmap encoding hcode hlow hhigh
    · simp only [if_neg hcond]
      refine iff_of_true h fun hbitmap encoding' hsome hlow hhigh => ?_
      cases hcode.symm.trans hsome
      exact absurd ⟨hbitmap, hlow, hhigh⟩ hcond

theorem bdfLine_data (s : BdfState) (line : List Char) :
    (bdfLine decimal s line).data = if strip line = "ENDCHAR".toList then endChar s else s.data := by
  by_cases hend : strip line = "ENDCHAR".toList
  · have hprefix : "ENCODING ".toList.isPrefixOf "ENDCHAR".toList = false := by decide
    have hbitmap : "ENDCHAR".toList ≠ "BITMAP".toList := by decide
    simp only [bdfLine, hend, hprefix, if_neg hbitmap, if_true, Bool.false_eq_true, if_false]
  · simp only [bdfLine, if_neg hend]
    split
    · split <;> rfl
    · split
      · rfl
      · split <;> rfl

theorem bdfLine_shaped_iff (h : Shaped s.data) :
    Shaped (bdfLine decimal s line).data ↔ BdfFits s line := by
  rw [bdfLine_data, BdfFits]
  split
  · next hend =>
    rw [endChar_shaped_iff h]
    exact ⟨fun hfits _ => hfits, fun hfits => hfits hend⟩
  · next hend => exact iff_of_true h fun hline => absurd hline hend

-- Every ENDCHAR line up to here fits exactly when the blob has its shape after each line.
theorem bdfToBin_shaped_iff (lines : List (List Char)) :
    (∀ front back, lines = front ++ back → Shaped (bdfToBin decimal front)) ↔
      PermittedRun (fun s line => some (bdfLine decimal s line)) BdfFits bdfStart lines := by
  have hstart : Shaped bdfStart.data := shaped_blank
  have hiff : (∀ front back s', lines = front ++ back →
      run (fun s line => some (bdfLine decimal s line)) bdfStart front = some s' → Shaped s'.data) ↔
      PermittedRun (fun s line => some (bdfLine decimal s line)) BdfFits bdfStart lines := by
    refine prefixes_iff (fun s (h : Shaped s.data) => h) (fun s line s' h _ hfits hs => ?_)
      (fun s line h _ hmisfit => ?_) hstart (permittedRun_true bdfStart lines)
    · cases hs
      exact (bdfLine_shaped_iff h).mpr hfits
    · exact ⟨_, rfl, fun hshaped => hmisfit ((bdfLine_shaped_iff h).mp hshaped)⟩
  rw [← hiff]
  constructor
  · intro h front back s' hlines hrun
    rw [run_total] at hrun
    cases hrun
    exact h front back hlines
  · intro h front back hlines
    exact h front back _ hlines (run_total _ _ _)

end Bdf

-- The blobs of the two scripts have their shape after each line, so at the end, exactly when each line
-- that is stored fits: in a .hex file it has a code from 0 on and sixteen bytes, in a .bdf file the
-- encoding has not changed since a row of the bitmap.
theorem font_shape_iff (decimal : Char → Option (Fin 10)) (lines : List (List Char)) :
    ((∀ front back data, lines = front ++ back → hexToBin decimal front = some data → Shaped data) ↔
      PermittedRun (hexLine decimal) (fun _ line => HexFits decimal line) blank lines) ∧
    ((∀ front back, lines = front ++ back → Shaped (bdfToBin decimal front)) ↔
      PermittedRun (fun s line => some (bdfLine decimal s line)) BdfFits bdfStart lines) :=
  ⟨hexToBin_shaped_iff lines, bdfToBin_shaped_iff lines⟩

-- A glyph for the code -1 goes between two others, and spaces make one shorter, so that those behind
-- move. A row for the code 65 goes to the code 66.
theorem font_misshaped :
    (hexToBin (fun _ => none) ["-1:00000000000000000000000000000000".toList]).map List.length =
      some 4112 ∧
    (hexToBin (fun _ => none) ["41:  000000000000000000000000000000".toList]).map List.length =
      some 4095 ∧
    ((bdfToBin (fun _ => none) (["ENCODING 65", "BITMAP", "18", "ENCODING 66", "ENDCHAR"].map
      String.toList))[66 * 16]?).map Cell.origin = some (some (some 65, 0)) := by
  refine ⟨?_, ?_, ?_⟩ <;> decide +kernel

end Miyabi.Scripts.Font2bin
