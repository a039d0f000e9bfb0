import NMiner.Lib.Lines
import NMiner.Spec.Stratum

/-! The lines a `StratumClient` hands on are the lines of the stream, however it is cut into
packets. What the handler keeps between two packets is the line under way, and the loop over a
packet keeps that for each newline it gets to. -/

namespace NMiner

namespace StratumClient

open Lines (ended ended_concat splitOn_ended splitOn_prefix)

/-- What is handed on for some lines. -/
def texts (ls : List (List Byte)) : List Text :=
  (ls.map fun l => trim (Utf8.decode l)).filter (· ≠ [])

/-- The state after a stream: whole lines, and the line under way in the chunks. -/
structure Framed (ls : List (List Byte)) (stream : List Byte) (s : StratumClient) : Prop where
  split : stream = ended NEWLINE ls ++ s.chunks.flatten
  whole : ∀ l ∈ ls, NEWLINE ∉ l
  rest : NEWLINE ∉ s.chunks.flatten
  totalLen : s.totalLen = s.chunks.flatten.length
  parsed : s.parsed = texts ls
  kept : s.destroyed = false

/-- No line of the stream, and not the part after the last newline, is too long. -/
def Fits (stream : List Byte) : Prop := ∀ l ∈ stream.splitOn NEWLINE, l.length ≤ MAX_LINE

theorem framed_start : Framed [] [] {} where
  split := rfl
  whole := List.forall_mem_nil _
  rest := List.not_mem_nil
  totalLen := rfl
  parsed := rfl
  kept := rfl

variable {ls : List (List Byte)} {stream : List Byte} {s : StratumClient}

/-- The line under way is no longer than the line it becomes. -/
theorem Framed.short (h : Framed ls stream s) {more : List Byte} (hfits : Fits (stream ++ more)) :
    s.totalLen ≤ MAX_LINE := by
  obtain ⟨q, rest, hq⟩ := splitOn_prefix h.rest more
  have hmem : s.chunks.flatten ++ q ∈ (stream ++ more).splitOn NEWLINE := by
    rw [h.split, List.append_assoc, splitOn_ended h.whole, hq]
    exact List.mem_append_right _ List.mem_cons_self
  have hle := hfits _ hmem
  rw [List.length_append] at hle
  rw [h.totalLen]
  omega

theorem Framed.push (h : Framed ls stream s) {chunk : List Byte} (hchunk : NEWLINE ∉ chunk) :
    Framed ls (stream ++ chunk) (s.push chunk) := by
  have hflat : (s.push chunk).chunks.flatten = s.chunks.flatten ++ chunk := by
    rw [StratumClient.push, List.flatten_append, List.flatten_singleton]
  refine ⟨?_, h.whole, ?_, ?_, h.parsed, h.kept⟩
  · rw [hflat, h.split, List.append_assoc]
  · rw [hflat, List.mem_append, not_or]
    exact ⟨h.rest, hchunk⟩
  · rw [hflat, List.length_append, ← h.totalLen]
    rfl

theorem texts_concat (ls : List (List Byte)) (l : List Byte) :
    texts (ls ++ [l]) =
      texts ls ++ if trim (Utf8.decode l) = [] then [] else [trim (Utf8.decode l)] := by
  unfold texts
  rw [List.map_append, List.filter_append, List.map_singleton]
  split_ifs with h
  · rw [h]
    rfl
  · rw [List.filter_cons_of_pos (p := fun x => decide (x ≠ [])) (decide_eq_true h), List.filter_nil]

theorem handle_parsed (s : StratumClient) (line : Text) :
    s.handle line = { s with
      parsed := s.parsed ++ if trim line = [] then [] else [trim line] } := by
  unfold handle
  split_ifs
  · rw [List.append_nil]
  · rfl

/-- `endLine` hands on the line under way with the slice at its end. -/
theorem endLine_eq (h : Framed ls stream s) (slice : List Byte) :
    s.endLine slice = { s with totalLen := 0, chunks := [] }.handle
      (Utf8.decode (s.chunks.flatten ++ slice)) := by
  unfold endLine
  split_ifs with hnil
  · have hlen : s.totalLen = 0 := by rw [h.totalLen, hnil]; rfl
    rw [hnil, List.flatten_nil, List.nil_append, ← hlen, ← hnil]
  · have hconcat : concat (s.push slice).chunks (s.push slice).totalLen =
        s.chunks.flatten ++ slice := by
      have hflat : (s.chunks ++ [slice]).flatten = s.chunks.flatten ++ slice := by
        rw [List.flatten_append, List.flatten_singleton]
      rw [concat, StratumClient.push, hflat, h.totalLen, ← List.length_append]
      exact List.takeD_eq_take 0 le_rfl |>.trans List.take_length
    dsimp only
    rw [hconcat]
    rfl

theorem Framed.endLine (h : Framed ls stream s) {slice : List Byte} (hslice : NEWLINE ∉ slice) :
    Framed (ls ++ [s.chunks.flatten ++ slice]) (stream ++ (slice ++ [NEWLINE]))
      (s.endLine slice) := by
  rw [endLine_eq h, handle_parsed]
  refine ⟨?_, ?_, List.not_mem_nil, rfl, ?_, h.kept⟩
  · rw [ended_concat, h.split]
    simp only [List.append_assoc, List.flatten_nil, List.append_nil]
  · intro l hl
    rcases List.mem_append.mp hl with hl | hl
    · exact h.whole l hl
    · rw [List.mem_singleton.mp hl, List.mem_append, not_or]
      exact ⟨h.rest, hslice⟩
  · rw [texts_concat, ← h.parsed]

theorem Framed.keepTail (h : Framed ls stream s) {raw : List Byte} {i : ℕ}
    (hraw : NEWLINE ∉ raw.drop i) {more : List Byte} (hfits : Fits (stream ++ raw.drop i ++ more)) :
    Framed ls (stream ++ raw.drop i) (s.keepTail raw i) := by
  have hpushed : Framed ls (stream ++ raw.drop i)
      (if i = 0 then s.push raw else if 0 < (raw.drop i).length
        then s.push (raw.drop i) else s) := by
    split_ifs with hi hlen
    · subst hi
      exact h.push hraw
    · exact h.push hraw
    · rw [List.length_eq_zero_iff.mp (Nat.eq_zero_of_not_pos hlen), List.append_nil]
      exact h
  unfold StratumClient.keepTail
  dsimp only
  rw [if_neg (Nat.not_lt.mpr (hpushed.short hfits))]
  exact hpushed

/-- The bytes up to the first newline, and after it. -/
theorem indexOf_cases (raw : List Byte) (i : ℕ) :
    indexOf raw NEWLINE i = none ∧ NEWLINE ∉ raw.drop i ∨
      ∃ j, indexOf raw NEWLINE i = some j ∧ NEWLINE ∉ subarray raw i j ∧
        raw.drop i = subarray raw i j ++ [NEWLINE] ++ raw.drop (j + 1) := by
  unfold indexOf
  rcases hfind : (raw.drop i).findIdx? (· = NEWLINE) with _ | k
  · refine .inl ⟨rfl, fun hmem => ?_⟩
    have := List.findIdx?_eq_none_iff.mp hfind NEWLINE hmem
    simp at this
  · obtain ⟨hk, hat, hbefore⟩ := List.findIdx?_eq_some_iff_getElem.mp hfind
    have hslice : subarray raw i (k + i) = (raw.drop i).take k := by
      rw [subarray, Nat.add_comm, ← List.take_drop]
    refine .inr ⟨k + i, rfl, ?_, ?_⟩
    · rw [hslice]
      intro hmem
      obtain ⟨m, hm, hget⟩ := List.mem_take_iff_getElem.mp hmem
      have := hbefore m (by omega)
      simp [hget] at this
    · have hnewline : (raw.drop i)[k] = NEWLINE := of_decide_eq_true hat
      have hdrop := List.drop_eq_getElem_cons hk
      rw [List.drop_drop, List.drop_drop, hnewline] at hdrop
      have hrest : raw.drop (i + k) = NEWLINE :: raw.drop (k + i + 1) := by
        rw [hdrop, show i + (k + 1) = k + i + 1 by omega]
      calc raw.drop i = (raw.drop i).take k ++ (raw.drop i).drop k :=
            (List.take_append_drop k _).symm
        _ = subarray raw i (k + i) ++ [NEWLINE] ++ raw.drop (k + i + 1) := by
            rw [hslice, List.drop_drop, hrest, List.append_assoc, List.singleton_append]

theorem scan_none {raw : List Byte} {i : ℕ} (h : indexOf raw NEWLINE i = none)
    (s : StratumClient) : scan raw i s = s.keepTail raw i := by
  rw [scan]
  split
  next => rfl
  next j hj => exact absurd (h.symm.trans hj) (Option.some_ne_none j).symm

theorem scan_some {raw : List Byte} {i j : ℕ} (h : indexOf raw NEWLINE i = some j)
    (s : StratumClient) :
    scan raw i s =
      if raw.length ≤ j + 1 then s.endLine (subarray raw i j)
      else scan raw (j + 1) (s.endLine (subarray raw i j)) := by
  rw [scan]
  split
  next hnone => exact absurd (h.symm.trans hnone) (Option.some_ne_none j)
  next k hk => rw [Option.some.inj (hk.symm.trans h)]

/-- The loop reads the packet to its end. -/
theorem Framed.scan (h : Framed ls stream s) {raw : List Byte} {i : ℕ} {more : List Byte}
    (hfits : Fits (stream ++ raw.drop i ++ more)) :
    ∃ ls', Framed ls' (stream ++ raw.drop i) (scan raw i s) := by
  induction hleft : raw.length - i using Nat.strong_induction_on generalizing i ls stream s with
  | _ n ih =>
    obtain ⟨hnone, hrest⟩ | ⟨j, hsome, hslice, hdrop⟩ := indexOf_cases raw i
    · rw [scan_none hnone]
      exact ⟨ls, h.keepTail hrest hfits⟩
    · have hline := h.endLine hslice
      have hstream : stream ++ raw.drop i =
          stream ++ (subarray raw i j ++ [NEWLINE]) ++ raw.drop (j + 1) := by
        rw [hdrop, List.append_assoc stream]
      rw [scan_some hsome, hstream]
      split_ifs with hend
      · rw [List.drop_eq_nil_of_le hend, List.append_nil]
        exact ⟨_, hline⟩
      · rw [hstream] at hfits
        have := le_of_indexOf hsome
        exact ih (raw.length - (j + 1)) (by omega) hline hfits rfl

theorem Framed.data (h : Framed ls stream s) {raw more : List Byte}
    (hfits : Fits (stream ++ raw ++ more)) : ∃ ls', Framed ls' (stream ++ raw) (s.data raw) := by
  unfold StratumClient.data
  rw [if_neg (by rw [h.kept]; exact Bool.false_ne_true)]
  exact h.scan (i := 0) hfits

theorem Framed.packets (h : Framed ls stream s) (packets : List (List Byte))
    (hfits : Fits (stream ++ packets.flatten)) :
    ∃ ls', Framed ls' (stream ++ packets.flatten) (packets.foldl StratumClient.data s) := by
  induction packets generalizing ls stream s with
  | nil => exact ⟨ls, by rwa [List.flatten_nil, List.append_nil]⟩
  | cons raw packets ih =>
    rw [List.flatten_cons, ← List.append_assoc] at hfits ⊢
    obtain ⟨ls', h'⟩ := h.data hfits
    exact ih h' hfits

/-- The lines of a whole stream and the line under way are the stream split at the newlines. -/
theorem Framed.splitOn (h : Framed ls stream s) :
    stream.splitOn NEWLINE = ls ++ [s.chunks.flatten] := by
  rw [h.split, splitOn_ended h.whole, List.splitOn_eq_singleton h.rest]

/-- The texts handed to `JSON.parse` are the lines of the whole stream, decoded and trimmed, less
the empty ones, and the socket is kept, for every way the stream is cut into packets. -/
theorem lines_of_stream (packets : List (List Byte))
    (hfits : ∀ l ∈ packets.flatten.splitOn NEWLINE, l.length ≤ MAX_LINE) :
    (packets.foldl data {}).destroyed = false ∧
    (packets.foldl data {}).parsed =
      (((packets.flatten.splitOn NEWLINE).dropLast.map fun l => trim (Utf8.decode l)).filter
        (· ≠ [])) := by
  obtain ⟨ls, h⟩ := framed_start.packets packets hfits
  rw [List.nil_append] at h
  refine ⟨h.kept, ?_⟩
  rw [h.parsed, h.splitOn, List.dropLast_concat]
  rfl

/-- A cut inside a character, an empty packet, a blank line, and a line that has not ended yet. -/
theorem lines_of_stream_cut :
    let packets : List (List Byte) :=
      [[0x61, 0xC3], [], [0xA9, 0x0A, 0x0D, 0x0A, 0x62], [0x0A, 0x63]]
    (∀ l ∈ packets.flatten.splitOn NEWLINE, l.length ≤ MAX_LINE) ∧
      (packets.foldl data {}).destroyed = false ∧
      (packets.foldl data {}).parsed = [['a', 'é'], ['b']] := by
  intro packets
  have hfits : ∀ l ∈ packets.flatten.splitOn NEWLINE, l.length ≤ MAX_LINE := by decide
  obtain ⟨hkept, hparsed⟩ := lines_of_stream packets hfits
  exact ⟨hfits, hkept, hparsed.trans (by decide)⟩

theorem newline_not_mem_encode {text : Text} (h : '\n' ∉ text) : NEWLINE ∉ Utf8.encode text := by
  intro hmem
  obtain ⟨c, hc, hb⟩ := List.mem_flatMap.mp hmem
  have hnat : NEWLINE.toNat = c.toNat := Utf8.eq_of_mem_encodeChar hb (by decide)
  have heq : '\n' = c := Char.toNat_inj.mp hnat
  exact h (heq ▸ hc)

/-- What a pool sends as lines is what is parsed, whatever the packets. -/
theorem parsed_of_texts (sent : List Text) (packets : List (List Byte))
    (hstream : packets.flatten = ended NEWLINE (sent.map Utf8.encode))
    (hline : ∀ text ∈ sent, '\n' ∉ text)
    (hfits : ∀ text ∈ sent, (Utf8.encode text).length ≤ MAX_LINE) :
    (packets.foldl data {}).parsed = (sent.map trim).filter (· ≠ []) := by
  have hwhole : ∀ l ∈ sent.map Utf8.encode, NEWLINE ∉ l := by
    intro l hl
    obtain ⟨text, htext, rfl⟩ := List.mem_map.mp hl
    exact newline_not_mem_encode (hline text htext)
  have hsplit : packets.flatten.splitOn NEWLINE = sent.map Utf8.encode ++ [[]] := by
    rw [hstream, ← List.append_nil (ended _ _), splitOn_ended hwhole, List.splitOn_nil]
  have hshort : ∀ l ∈ packets.flatten.splitOn NEWLINE, l.length ≤ MAX_LINE := by
    intro l hl
    rw [hsplit, List.mem_append, List.mem_singleton] at hl
    obtain hl | rfl := hl
    · obtain ⟨text, htext, rfl⟩ := List.mem_map.mp hl
      exact hfits text htext
    · exact Nat.zero_le _
  rw [(lines_of_stream packets hshort).2, hsplit, List.dropLast_concat, List.map_map]
  congr 1
  apply List.map_congr_left
  intro text _
  rw [Function.comp_apply, Utf8.decode_encode]

end StratumClient

end NMiner
