import NikitaFirmware.Toolbox.FlipperValues

/-!
# Files of entries, read from a position

Readers of `lib/flipper_format/flipper_format.c` over a stream whose position is somewhere in a file
of comments, keys and values: whether a key is there at all, and the value of the next entry with a
key.
-/

namespace NikitaFirmware.Toolbox.FlipperStream

open Foundations List

def keyExist (stream : Cursor Char) (key : List Char) : Bool × Cursor Char :=
  let pos := stream.tell
  let found := seekToKey key false (stream.seek 0).2
  (found.1, (found.2.seek pos).2)

section
variable (stream : Cursor Char) (key : List Char) (strictMode : Bool)

theorem content_readValidKey : (readValidKey stream).2.content = stream.content := by
  rw [readValidKey, Cursor.scanBlocks_eq (by decide)]
  cases (Cursor.scan keyStep ⟨[], true, true⟩ stream.after).1 <;> exact Cursor.content_advance ..

theorem content_seekToKeyLoop (fuel : Nat) :
    (seekToKeyLoop key strictMode fuel stream).2.content = stream.content := by
  induction fuel generalizing stream with
  | zero => rfl
  | succ fuel ih =>
    have hread := content_readValidKey stream
    rw [seekToKeyLoop]
    split
    · rfl
    cases hkey : readValidKey stream with
    | mk found next =>
      rw [hkey] at hread
      cases found with
      | none => exact (ih next).trans hread
      | some readKey =>
        dsimp only
        split
        · exact (Cursor.content_seek ..).trans hread
        split
        · exact hread
        · exact (ih next).trans hread

theorem content_seekToKey : (seekToKey key strictMode stream).2.content = stream.content :=
  content_seekToKeyLoop ..

theorem length_readElementsLoop {α : Type} {scan : List Char → Option α} {n : Nat} {xs : List α}
    (h : (readElementsLoop scan n stream).1 = some xs) : xs.length = n := by
  induction n generalizing stream xs with
  | zero => exact (Option.some.inj h) ▸ rfl
  | succ n ih =>
    rw [readElementsLoop] at h
    cases hvalue : readValue stream with
    | mk found next =>
      rw [hvalue] at h
      cases found with
      | none => exact absurd h (Option.some_ne_none xs).symm
      | some found =>
        obtain ⟨value, last⟩ := found
        dsimp only at h
        cases hscan : scan value with
        | none =>
          rw [hscan] at h
          exact absurd h (Option.some_ne_none xs).symm
        | some x =>
          rw [hscan] at h
          dsimp only at h
          split at h
          · exact absurd h (Option.some_ne_none xs).symm
          · obtain ⟨tail, htail, rfl⟩ := Option.map_eq_some_iff.mp h
            rw [length_cons, ih next htail]

theorem length_readElements {α : Type} {scan : List Char → Option α} {n : Nat} {xs : List α}
    (h : (readElements scan stream key n strictMode).1 = some xs) : xs.length = n := by
  rw [readElements] at h
  split at h
  · exact length_readElementsLoop _ h
  · exact absurd h (Option.some_ne_none xs).symm

end

namespace Entry

def key? : Entry → Option (List Char)
  | comment _ => none
  | pair key _ => some key

def Sound : Entry → Prop
  | comment text => '\n' ∉ text
  | pair key data => ValidKey key ∧ ∃ texts, data.texts = some texts ∧ '\n' ∉ valuesText texts

def line : Entry → Line
  | comment text => .comment (' ' :: text)
  | pair key data => .keyed key (' ' :: valuesText (data.texts.getD []))

theorem Sound.wellFormed {entry : Entry} (h : entry.Sound) : entry.line.WellFormed := by
  cases entry with
  | comment text => exact fun hmem => h ((mem_cons.mp hmem).resolve_left (by decide))
  | pair key data =>
    obtain ⟨hkey, texts, htexts, heol⟩ := h
    refine ⟨hkey, fun hmem => heol ?_⟩
    rw [htexts] at hmem
    exact (mem_cons.mp hmem).resolve_left (by decide)

theorem key?_line (entry : Entry) : entry.line.key? = entry.key? := by
  cases entry <;> rfl

theorem Sound.flatten_pieces {entry : Entry} (h : entry.Sound) :
    entry.pieces.flatten = entry.line.chars ++ ['\n'] := by
  cases entry with
  | comment text =>
    simp only [pieces, writeComment, line, Line.chars, flatten_cons, flatten_nil,
      append_nil, cons_append, nil_append]
  | pair key data =>
    obtain ⟨-, texts, htexts, -⟩ := h
    rw [pieces, flatten_writeValueLine htexts, line, htexts]
    simp only [Line.chars, Option.getD_some, append_assoc, cons_append]

end Entry

variable {entries skipped rest : List Entry} {key : List Char} {data : WriteData}
  {stream : Cursor Char}

theorem entriesText_eq_render (h : ∀ entry ∈ entries, entry.Sound) :
    entriesText entries = render (entries.map Entry.line) := by
  induction entries with
  | nil => rfl
  | cons entry entries ih =>
    obtain ⟨hentry, htail⟩ := forall_mem_cons.mp h
    rw [entriesText_cons, ih htail, hentry.flatten_pieces, map_cons, render_cons, append_assoc]
    rfl

theorem entriesText_append :
    entriesText (entries ++ rest) = entriesText entries ++ entriesText rest :=
  flatMap_append

/-- The entries lie ahead of the position, behind the rest of a line that is over. -/
def Ahead (stream : Cursor Char) (entries : List Entry) : Prop :=
  ∃ p, Passes p ∧ stream.after = p ++ entriesText entries

theorem ahead_of_eol (h : stream.after = '\n' :: entriesText entries) : Ahead stream entries :=
  ⟨['\n'], rfl, h⟩

/-- The lines that are passed over. -/
structure Skipped (entries : List Entry) (key : List Char) : Prop where
  sound : ∀ entry ∈ entries, entry.Sound
  other : ∀ entry ∈ entries, entry.key? ≠ some key

theorem seekToKey_entry {texts : List (List Char)} (hskip : Skipped skipped key)
    (hkey : ValidKey key) (htexts : data.texts = some texts)
    (hahead : Ahead stream (skipped ++ .pair key data :: rest)) :
    ∃ found, seekToKey key false stream = (true, found) ∧
      found.after = valuesText texts ++ '\n' :: entriesText rest ∧
      found.content = stream.content := by
  obtain ⟨p, hp, hafter⟩ := hahead
  have htext : stream.after = p ++ (render (skipped.map Entry.line) ++
      (key ++ ':' :: ' ' :: (valuesText texts ++ '\n' :: entriesText rest))) := by
    rw [hafter, entriesText_append, entriesText_eq_render hskip.sound, entriesText_cons,
      Entry.pieces, flatten_writeValueLine htexts]
    simp only [append_assoc, cons_append, nil_append]
  have hfuel : (skipped.map Entry.line).length < stream.after.length + 1 := by
    have hle := length_le_render (skipped.map Entry.line)
    rw [htext, length_append, length_append]
    omega
  have hloop := @seekToKeyLoop_lines _ _ _ _ false (fun line hline => by
      obtain ⟨entry, hentry, rfl⟩ := mem_map.mp hline
      exact (hskip.sound entry hentry).wellFormed)
    (fun line hline => by
      obtain ⟨entry, hentry, rfl⟩ := mem_map.mp hline
      rw [Entry.key?_line]
      exact hskip.other entry hentry)
    (fun h => absurd h Bool.false_ne_true) hp hkey stream htext _ hfuel
  have hdrop : (stream.advance (p.length + (render (skipped.map Entry.line)).length +
      key.length)).after = ':' :: ' ' :: (valuesText texts ++ '\n' :: entriesText rest) := by
    rw [Cursor.advance, htext, ← append_assoc, ← append_assoc, ← length_append,
      ← length_append, drop_left]
  refine ⟨(stream.advance (p.length + (render (skipped.map Entry.line)).length +
    key.length)).advance 2, ?_, ?_, ?_⟩
  · rw [seekToKey, hloop]
    exact Cursor.seek_advance (by rw [hdrop]; simp only [length_cons]; omega)
  · rw [Cursor.advance, hdrop]
    rfl
  · rw [Cursor.content_advance, Cursor.content_advance]

theorem seekToKeyLoop_absent {lines : List Line} {p : List Char}
    (hlines : ∀ line ∈ lines, line.WellFormed) (hkeys : ∀ line ∈ lines, line.key? ≠ some key)
    (hp : Passes p) (hafter : stream.after = p ++ render lines) (fuel : Nat) :
    (seekToKeyLoop key false fuel stream).1 = false := by
  induction lines generalizing p stream fuel with
  | nil =>
    have hend : ∀ (stream : Cursor Char) (fuel : Nat), stream.after = [] →
        (seekToKeyLoop key false fuel stream).1 = false := by
      intro stream fuel hnil
      cases fuel with
      | zero => rfl
      | succ fuel => rw [seekToKeyLoop, if_pos (by rw [Cursor.eof, hnil]; rfl)]
    rw [render, flatMap_nil, append_nil] at hafter
    cases fuel with
    | zero => rfl
    | succ fuel =>
      have hread :
          readValidKey stream = (none, stream.advance (Cursor.scan keyStep start p).2) := by
        have hpass : (Cursor.scan keyStep ⟨[], true, true⟩ p).1 = .inl start := hp
        rw [readValidKey, Cursor.scanBlocks_eq (by decide), hafter, hpass]
        rfl
      have hall : (Cursor.scan keyStep start p).2 = p.length := by
        have h := hp.scan_append []
        rw [append_nil] at h
        exact (congrArg Prod.snd h).trans (Nat.add_zero _)
      rw [seekToKeyLoop]
      split
      · rfl
      · rw [hread, hall]
        exact hend _ _ (by rw [Cursor.advance, hafter, drop_length])
  | cons line lines ih =>
    obtain ⟨hline, htail⟩ := forall_mem_cons.mp hlines
    obtain ⟨hother, hkeys'⟩ := forall_mem_cons.mp hkeys
    cases hfound : line.key? with
    | none =>
      refine ih htail hkeys' (hp.append (passes_line hline hfound)) ?_ fuel
      rw [hafter, render_cons]
      simp only [append_assoc, cons_append, nil_append]
    | some other =>
      obtain ⟨value, rfl⟩ := Line.keyed_of_key? hfound
      have hne : other ≠ key := fun h => hother (congrArg some h)
      cases fuel with
      | zero => rfl
      | succ fuel =>
        have hafter₁ : stream.after = p ++ (other ++ ':' :: (value ++ '\n' :: render lines)) := by
          rw [hafter, render_cons, Line.chars]
          simp only [append_assoc, cons_append]
        have hafter₂ : (stream.advance (p.length + other.length)).after =
            (':' :: (value ++ ['\n'])) ++ render lines := by
          rw [Cursor.advance, hafter₁, ← append_assoc p, ← length_append, drop_left]
          simp only [append_assoc, cons_append, nil_append]
        rw [seekToKeyLoop_other hp hline.1 hne hafter₁, if_neg Bool.false_ne_true]
        exact ih htail hkeys' (passes_delimiter hline.2) hafter₂ fuel

theorem seekToKey_absent (hskip : Skipped entries key) (hahead : Ahead stream entries) :
    (seekToKey key false stream).1 = false := by
  obtain ⟨p, hp, hafter⟩ := hahead
  rw [entriesText_eq_render hskip.sound] at hafter
  refine seekToKeyLoop_absent ?_ ?_ hp hafter _
  · intro line hline
    obtain ⟨entry, hentry, rfl⟩ := mem_map.mp hline
    exact (hskip.sound entry hentry).wellFormed
  · intro line hline
    obtain ⟨entry, hentry, rfl⟩ := mem_map.mp hline
    rw [Entry.key?_line]
    exact hskip.other entry hentry

theorem exists_first_entry (hkeys : ∃ entry ∈ entries, entry.key? = some key) :
    ∃ skipped data rest, entries = skipped ++ .pair key data :: rest ∧
      ∀ entry ∈ skipped, entry.key? ≠ some key := by
  induction entries with
  | nil =>
    obtain ⟨entry, hmem, -⟩ := hkeys
    exact absurd hmem not_mem_nil
  | cons entry entries ih =>
    by_cases hentry : entry.key? = some key
    · cases entry with
      | comment text => exact absurd hentry (Option.some_ne_none key).symm
      | pair other data =>
        obtain rfl := Option.some.inj hentry
        exact ⟨[], data, entries, rfl, fun _ h => absurd h not_mem_nil⟩
    · obtain ⟨found, hmem, hfound⟩ := hkeys
      rcases mem_cons.mp hmem with rfl | hmem
      · exact absurd hfound hentry
      · obtain ⟨skipped, data, rest, rfl, hskip⟩ := ih ⟨found, hmem, hfound⟩
        exact ⟨entry :: skipped, data, rest, rfl, forall_mem_cons.mpr ⟨hentry, hskip⟩⟩

theorem keyExist_eq (hsound : ∀ entry ∈ entries, entry.Sound)
    (hcontent : stream.content = entriesText entries) :
    keyExist stream key = (entries.any fun entry => decide (entry.key? = some key), stream) := by
  have hzero : stream.seek 0 = (true, ⟨[], stream.content⟩) := by
    exact @Cursor.seek_length _ _ [] _ (nil_append _).symm 0 rfl
  have hback : ((seekToKey key false ⟨[], stream.content⟩).2.seek stream.tell).2 = stream := by
    have hsame : (seekToKey key false ⟨[], stream.content⟩).2.content =
        stream.before ++ stream.after := content_seekToKey ..
    rw [@Cursor.seek_length _ _ _ _ hsame stream.tell rfl]
  have hahead : Ahead ⟨[], stream.content⟩ entries := ⟨[], passes_nil, hcontent⟩
  rw [keyExist, hzero]
  refine Prod.ext ?_ hback
  dsimp only
  by_cases hkeys : ∃ entry ∈ entries, entry.key? = some key
  · obtain ⟨skipped, data, rest, rfl, hskip⟩ := exists_first_entry hkeys
    obtain ⟨hsound', hentry, -⟩ := forall_mem_append.mp hsound |>.imp_right forall_mem_cons.mp
    obtain ⟨hkey, texts, htexts, -⟩ := hentry
    obtain ⟨found, hfound, -⟩ := seekToKey_entry ⟨hsound', hskip⟩ hkey htexts hahead
    rw [hfound, any_append, any_cons, Entry.key?, decide_eq_true rfl, Bool.true_or, Bool.or_true]
  · have hskip : Skipped entries key := ⟨hsound, fun entry hmem h => hkeys ⟨entry, hmem, h⟩⟩
    rw [seekToKey_absent hskip hahead, eq_comm, any_eq_false]
    intro entry hmem h
    exact hskip.other entry hmem (of_decide_eq_true h)

theorem valuesText_tokens {texts : List (List Char)} (h : ∀ w ∈ texts, IsToken w) :
    '\n' ∉ valuesText texts := by
  induction texts with
  | nil => exact not_mem_nil
  | cons w texts ih =>
    obtain ⟨hw, htail⟩ := forall_mem_cons.mp h
    have hchars : '\n' ∉ w := fun hmem => (hw.2 _ hmem).2 rfl
    cases texts with
    | nil => rwa [valuesText_singleton]
    | cons v texts =>
      rw [valuesText_cons, mem_append, mem_cons, not_or, not_or]
      exact ⟨hchars, by decide, ih htail⟩

theorem mem_valuesText {ws : List (List Char)} {c : Char} (hc : c ∈ valuesText ws) :
    c = ' ' ∨ ∃ w ∈ ws, c ∈ w := by
  induction ws with
  | nil => exact absurd hc not_mem_nil
  | cons w ws ih =>
    cases ws with
    | nil =>
      rw [valuesText_singleton] at hc
      exact .inr ⟨w, mem_cons_self, hc⟩
    | cons v ws =>
      rw [valuesText_cons] at hc
      obtain hw | hrest := mem_append.mp hc
      · exact .inr ⟨w, mem_cons_self, hw⟩
      · obtain hspace | htail := mem_cons.mp hrest
        · exact .inl hspace
        · obtain hspace | ⟨u, hu, hmem⟩ := ih htail
          · exact .inl hspace
          · exact .inr ⟨u, mem_cons_of_mem _ hu, hmem⟩

variable {α : Type} {print : α → List Char} {scan : List Char → Option α} {xs : List α}

theorem tokens_map (hformat : ElementFormat print scan) : ∀ w ∈ xs.map print, IsToken w := by
  intro w hw
  obtain ⟨x, -, rfl⟩ := mem_map.mp hw
  exact hformat.token x

theorem readElements_entry (hformat : ElementFormat print scan) (hskip : Skipped skipped key)
    (hkey : ValidKey key) (htexts : data.texts = some (xs.map print))
    (hahead : Ahead stream (skipped ++ .pair key data :: rest)) :
    ∃ next, readElements scan stream key xs.length false = (some xs, next) ∧ Ahead next rest ∧
      next.content = stream.content := by
  obtain ⟨found, hfound, hafter, hcontent⟩ := seekToKey_entry hskip hkey htexts hahead
  refine ⟨found.advance (valuesText (xs.map print)).length, ?_, ahead_of_eol ?_, ?_⟩
  · rw [readElements, hfound]
    dsimp only
    rw [if_pos rfl]
    cases xs with
    | nil => exact congrArg (Prod.mk _) Cursor.advance_zero.symm
    | cons x xs => exact readElementsLoop_values hformat hafter
  · rw [Cursor.advance, hafter, drop_left]
  · rw [Cursor.content_advance, hcontent]

theorem getValueCount_entry (hformat : ElementFormat print scan) (hskip : Skipped skipped key)
    (hkey : ValidKey key) (htexts : data.texts = some (xs.map print)) (hne : xs ≠ [])
    (hahead : Ahead stream (skipped ++ .pair key data :: rest)) :
    getValueCount stream key false = (some xs.length, stream) := by
  obtain ⟨found, hfound, hafter, hcontent⟩ := seekToKey_entry hskip hkey htexts hahead
  obtain ⟨x, xs, rfl⟩ := exists_cons_of_ne_nil hne
  have hfuel : ∀ (ws : List (List Char)) (w : List Char), ws.length ≤
      (valuesText (w :: ws)).length := by
    intro ws
    induction ws with
    | nil => exact fun _ => Nat.zero_le _
    | cons v ws ih =>
      intro w
      have := ih v
      rw [valuesText_cons, length_append, length_cons, length_cons]
      omega
  have hcount := @countLoop_values (print x) _ (xs.map print)
    (@tokens_map α print scan (x :: xs) hformat) found hafter (found.after.length + 1) 0 (by
      have := hfuel (xs.map print) (print x)
      rw [hafter, length_append, map_cons]
      omega)
  have hback : (found.advance (valuesText (print x :: xs.map print)).length).seek
      (stream.tell : Nat) = (true, stream) :=
    Cursor.seek_length (by rw [Cursor.content_advance, hcontent, Cursor.content]) rfl
  rw [getValueCount, hfound]
  dsimp only
  rw [if_pos rfl, hcount]
  dsimp only
  rw [hback, length_map, Nat.zero_add, length_cons]
  rfl

theorem readString_entry {str : List Char} (hstr : '\n' ∉ str ∧ '\r' ∉ str) (hne : str ≠ [])
    (hskip : Skipped skipped key) (hkey : ValidKey key)
    (hahead : Ahead stream (skipped ++ .pair key (.str str) :: rest)) :
    ∃ next, readString stream key false = (some str, next) ∧ Ahead next rest ∧
      next.content = stream.content := by
  obtain ⟨found, hfound, hafter, hcontent⟩ := seekToKey_entry hskip hkey rfl hahead
  rw [valuesText_singleton] at hafter
  refine ⟨found.advance str.length, ?_, ahead_of_eol ?_, ?_⟩
  · rw [readString, hfound]
    exact readLine_eq hstr hne hafter
  · rw [Cursor.advance, hafter, drop_left]
  · rw [Cursor.content_advance, hcontent]

namespace Entry

def pair? : Entry → Option (List Char × WriteData)
  | comment _ => none
  | pair key data => some (key, data)

end Entry

/-- The keys and values of a file, without its comments. -/
def pairs (entries : List Entry) : List (List Char × WriteData) := entries.filterMap Entry.pair?

theorem pairs_append (a b : List Entry) : pairs (a ++ b) = pairs a ++ pairs b :=
  filterMap_append

theorem pairs_map {α : Type} (keyOf : α → List Char) (dataOf : α → WriteData) (xs : List α) :
    pairs (xs.map fun x => .pair (keyOf x) (dataOf x)) = xs.map fun x => (keyOf x, dataOf x) := by
  rw [pairs, filterMap_map]
  exact filterMap_eq_map_iff_forall_eq_some.mpr fun x _ => rfl

variable {all ps : List (List Char × WriteData)}

theorem pairs_eq_cons (h : pairs entries = (key, data) :: ps) :
    ∃ skipped rest, entries = skipped ++ .pair key data :: rest ∧
      (∀ entry ∈ skipped, entry.key? = none) ∧ pairs rest = ps := by
  induction entries with
  | nil => exact absurd h (cons_ne_nil _ _).symm
  | cons entry entries ih =>
    cases entry with
    | comment text =>
      obtain ⟨skipped, rest, rfl, hskip, hrest⟩ := ih h
      exact ⟨.comment text :: skipped, rest, rfl, forall_mem_cons.mpr ⟨rfl, hskip⟩, hrest⟩
    | pair other value =>
      obtain ⟨hpair, hrest⟩ := List.cons.inj h
      obtain ⟨rfl, rfl⟩ := Prod.mk.inj hpair
      exact ⟨[], entries, rfl, fun _ h => absurd h not_mem_nil, hrest⟩

/-- The position in a file with the pairs `all`, of which the pairs `ps` are still ahead. -/
structure Placed (stream : Cursor Char) (all ps : List (List Char × WriteData)) : Prop where
  content : ∃ entries, (∀ entry ∈ entries, entry.Sound) ∧ stream.content = entriesText entries ∧
    pairs entries = all
  ahead : ∃ entries, (∀ entry ∈ entries, entry.Sound) ∧ Ahead stream entries ∧ pairs entries = ps

theorem placed_of_entries (hsound : ∀ entry ∈ entries, entry.Sound) :
    Placed ⟨[], entriesText entries⟩ (pairs entries) (pairs entries) where
  content := ⟨entries, hsound, rfl, rfl⟩
  ahead := ⟨entries, hsound, ⟨[], passes_nil, rfl⟩, rfl⟩

theorem Placed.keyExist (h : Placed stream all ps) (key : List Char) :
    keyExist stream key = (decide (key ∈ all.map Prod.fst), stream) := by
  obtain ⟨entries, hsound, hcontent, rfl⟩ := h.content
  rw [keyExist_eq hsound hcontent]
  refine Prod.ext ?_ rfl
  dsimp only
  rw [Bool.eq_iff_iff, any_eq_true, decide_eq_true_iff]
  constructor
  · rintro ⟨entry, hmem, hkey⟩
    cases entry with
    | comment text => exact absurd hkey (by simp [Entry.key?])
    | pair other data =>
      obtain rfl := Option.some.inj (of_decide_eq_true hkey)
      exact mem_map.mpr ⟨(other, data), mem_filterMap.mpr ⟨_, hmem, rfl⟩, rfl⟩
  · intro hmem
    obtain ⟨p, hp, rfl⟩ := mem_map.mp hmem
    obtain ⟨entry, hentry, hpair⟩ := mem_filterMap.mp hp
    refine ⟨entry, hentry, ?_⟩
    cases entry with
    | comment text => exact absurd hpair (Option.some_ne_none p).symm
    | pair other data =>
      obtain rfl := Option.some.inj hpair
      exact decide_eq_true rfl

theorem Placed.next (h : Placed stream all ((key, data) :: ps)) :
    ∃ skipped rest, Skipped skipped key ∧ ValidKey key ∧
      Ahead stream (skipped ++ .pair key data :: rest) ∧
      ∀ next, Ahead next rest → next.content = stream.content → Placed next all ps := by
  obtain ⟨entries, hsound, hahead, hpairs⟩ := h.ahead
  obtain ⟨skipped, rest, rfl, hskip, hrest⟩ := pairs_eq_cons hpairs
  obtain ⟨hsound₁, hsound₂⟩ := forall_mem_append.mp hsound
  obtain ⟨hentry, hsound₃⟩ := forall_mem_cons.mp hsound₂
  refine ⟨skipped, rest, ⟨hsound₁, fun entry hmem => ?_⟩, hentry.1, hahead,
    fun next hnext hsame => ?_⟩
  · rw [hskip entry hmem]
    exact (Option.some_ne_none key).symm
  · refine ⟨?_, rest, hsound₃, hnext, hrest⟩
    obtain ⟨es, hes, hcontent, hall⟩ := h.content
    exact ⟨es, hes, hsame.trans hcontent, hall⟩

theorem Placed.readElements (h : Placed stream all ((key, data) :: ps))
    (hformat : ElementFormat print scan) (htexts : data.texts = some (xs.map print)) {n : Nat}
    (hn : n = xs.length) :
    ∃ next, readElements scan stream key n false = (some xs, next) ∧ Placed next all ps := by
  obtain ⟨skipped, rest, hskip, hkey, hahead, hnext⟩ := h.next
  obtain ⟨next, hread, hrest, hcontent⟩ := readElements_entry hformat hskip hkey htexts hahead
  exact ⟨next, hn ▸ hread, hnext next hrest hcontent⟩

theorem readElement_placed (h : Placed stream all ((key, data) :: ps))
    (hformat : ElementFormat print scan) {x : α} (htexts : data.texts = some [print x]) :
    ∃ next, readElements scan stream key 1 false = (some [x], next) ∧ Placed next all ps :=
  h.readElements hformat (show data.texts = some ([x].map print) from htexts) rfl

theorem Placed.getValueCount (h : Placed stream all ((key, data) :: ps))
    (hformat : ElementFormat print scan) (htexts : data.texts = some (xs.map print))
    (hne : xs ≠ []) : getValueCount stream key false = (some xs.length, stream) := by
  obtain ⟨skipped, rest, hskip, hkey, hahead, -⟩ := h.next
  exact getValueCount_entry hformat hskip hkey htexts hne hahead

theorem Placed.readString {str : List Char} (h : Placed stream all ((key, .str str) :: ps))
    (hstr : '\n' ∉ str ∧ '\r' ∉ str) (hne : str ≠ []) :
    ∃ next, readString stream key false = (some str, next) ∧ Placed next all ps := by
  obtain ⟨skipped, rest, hskip, hkey, hahead, hnext⟩ := h.next
  obtain ⟨next, hread, hrest, hcontent⟩ := readString_entry hstr hne hskip hkey hahead
  exact ⟨next, hread, hnext next hrest hcontent⟩

/-- What `flipper_format_write_hex` gets of an array: its size is a `uint16_t` there. -/
def hexData (bytes : List UInt8) : WriteData :=
  .hex ⟨bytes.take (bytes.length % 2 ^ 16),
    Nat.lt_of_le_of_lt (length_take_le ..) (Nat.mod_lt _ (by decide))⟩

def boolData (b : Bool) : WriteData := .bool ⟨[b], Nat.one_lt_two_pow (by decide)⟩

def uint32Data (n : UInt32) : WriteData := .uint32 ⟨[n], Nat.one_lt_two_pow (by decide)⟩

def comment (text : String) : Entry := .comment text.toList

/-- What a reader has read, with the position behind it. -/
def succeeded {α : Type} (r : Option α × Cursor Char) : Option (α × Cursor Char) :=
  r.1.map (·, r.2)

/-- `flipper_format_read_hex`, whose size is a `uint16_t`, into an array of zeros. -/
def readHex (ff : Cursor Char) (key : List Char) (size : Nat) : Option (List UInt8 × Cursor Char) :=
  (succeeded (readElements scanHex ff key (size % 2 ^ 16) false)).map fun r =>
    (r.1 ++ List.replicate (size - r.1.length) 0, r.2)

def readBool (ff : Cursor Char) (key : List Char) : Option (Bool × Cursor Char) :=
  (succeeded (readElements scanBool ff key 1 false)).map fun r => (r.1.headD false, r.2)

/-- `flipper_format_read_uint32`, of one value. -/
def readUint32 (ff : Cursor Char) (key : List Char) : Option (UInt32 × Cursor Char) :=
  (succeeded (readElements scanUint32 ff key 1 false)).map fun r => (r.1.headD 0, r.2)

variable {key : List Char}

variable {r : List UInt8 × Cursor Char}

theorem readHex_eq_some {ff : Cursor Char} {n : Nat} (h : readHex ff key n = some r) :
    ∃ xs : List UInt8, xs.length = n % 2 ^ 16 ∧ r.1 = xs ++ List.replicate (n - n % 2 ^ 16) 0 := by
  obtain ⟨p, hp, rfl⟩ := Option.map_eq_some_iff.mp h
  obtain ⟨xs, hxs, rfl⟩ := Option.map_eq_some_iff.mp hp
  have hlength := length_readElements _ _ _ hxs
  exact ⟨xs, hlength, by rw [hlength]⟩

theorem length_readHex {ff : Cursor Char} {n : Nat}
    (h : readHex ff key n = some r) : r.1.length = n := by
  obtain ⟨xs, hlength, hr⟩ := readHex_eq_some h
  have hle := Nat.mod_le n (2 ^ 16)
  rw [hr, length_append, length_replicate, hlength]
  omega

theorem beyond_readHex {ff : Cursor Char} {n : Nat}
    (h : readHex ff key n = some r) : ∀ b ∈ r.1.drop (n % 2 ^ 16), b = 0 := by
  obtain ⟨xs, hlength, hr⟩ := readHex_eq_some h
  rw [hr, drop_left' hlength]
  exact fun b hb => eq_of_mem_replicate hb

section
variable {ff : Cursor Char} {all ps : List (List Char × WriteData)} {key : List Char}

/-- What is left of an array in a file. -/
def stored (xs : List UInt8) : List UInt8 :=
  xs.take (xs.length % 2 ^ 16) ++ List.replicate (xs.length - xs.length % 2 ^ 16) 0

theorem stored_eq {xs : List UInt8} (h : ∀ b ∈ xs.drop (xs.length % 2 ^ 16), b = 0) :
    stored xs = xs := by
  have hdrop : xs.drop (xs.length % 2 ^ 16) = List.replicate (xs.length - xs.length % 2 ^ 16) 0 :=
    eq_replicate_iff.mpr ⟨length_drop, h⟩
  rw [stored, ← hdrop, take_append_drop]

theorem stored_short {xs : List UInt8} (h : xs.length < 2 ^ 16) : stored xs = xs := by
  refine stored_eq fun b hb => ?_
  rw [Nat.mod_eq_of_lt h, drop_length] at hb
  exact absurd hb not_mem_nil

theorem readHex_placed {xs : List UInt8} (h : Placed ff all ((key, hexData xs) :: ps)) :
    ∃ next, readHex ff key xs.length = some (stored xs, next) ∧ Placed next all ps := by
  have hlength : xs.length % 2 ^ 16 = (xs.take (xs.length % 2 ^ 16)).length := by
    rw [length_take, Nat.min_eq_left (Nat.mod_le ..)]
  obtain ⟨next, hread, hnext⟩ := h.readElements hexFormat rfl hlength
  refine ⟨next, ?_, hnext⟩
  rw [readHex, hread, succeeded, Option.map_some, Option.map_some, ← hlength]
  rfl

theorem readByte_placed {value : UInt8} (h : Placed ff all ((key, hexData [value]) :: ps)) :
    ∃ next, readHex ff key 1 = some ([value], next) ∧ Placed next all ps := by
  obtain ⟨next, hread, hnext⟩ := readHex_placed h
  exact ⟨next, hread, hnext⟩

theorem readBool_placed {value : Bool} (h : Placed ff all ((key, boolData value) :: ps)) :
    ∃ next, readBool ff key = some (value, next) ∧ Placed next all ps := by
  obtain ⟨next, hread, hnext⟩ := readElement_placed h boolFormat rfl
  refine ⟨next, ?_, hnext⟩
  rw [readBool, hread]
  rfl

theorem readUint32_placed {value : UInt32} (h : Placed ff all ((key, uint32Data value) :: ps)) :
    ∃ next, readUint32 ff key = some (value, next) ∧ Placed next all ps := by
  obtain ⟨next, hread, hnext⟩ := readElement_placed h uint32Format rfl
  refine ⟨next, ?_, hnext⟩
  rw [readUint32, hread]
  rfl

end

theorem sound_hex (hkey : ValidKey key) (bytes : List UInt8) :
    (Entry.pair key (hexData bytes)).Sound :=
  ⟨hkey, _, rfl, valuesText_tokens (tokens_map hexFormat)⟩

theorem sound_bool (hkey : ValidKey key) (b : Bool) : (Entry.pair key (boolData b)).Sound :=
  ⟨hkey, _, rfl, valuesText_tokens (tokens_map boolFormat)⟩

theorem sound_uint32 (hkey : ValidKey key) (n : UInt32) : (Entry.pair key (uint32Data n)).Sound :=
  ⟨hkey, _, rfl, valuesText_tokens (tokens_map uint32Format)⟩

theorem sound_str {key str : List Char} (hkey : ValidKey key) (hstr : '\n' ∉ str) :
    (Entry.pair key (.str str)).Sound :=
  ⟨hkey, [str], rfl, by rwa [valuesText_singleton]⟩

theorem sound_comment {text : String} (h : '\n' ∉ text.toList) : (comment text).Sound := h

end NikitaFirmware.Toolbox.FlipperStream
