import VersionedTables.Proofs.Document.Canonical

/-!
# What encodings tell apart

Two documents have the same encoding just when they are alike (`Document.encode_eq_iff_alike`): when
they are equal up to the order of the entries of their objects, and up to numbers that have one
canonical form. So alike documents have one fingerprint, and documents that are not have two, unless
their encodings are a collision of the digest.

An encoding shows where it ends, whatever comes behind (`Document.alike_of_encode_append`), because
lengths and counts stand in front of what they count and take eight bytes each. Their being written
in eight bytes is what is asked of a document: what it counts fits into 64 bits
(`Document.Proper`).
-/

namespace VersionedTables

/-! ## Lists of bytes -/

/-- The bytes of an array are its data. -/
theorem toList_byteArray (bytes : ByteArray) : bytes.toList = bytes.data.toList := by
  have hloop (i : Nat) (read : List UInt8) :
      ByteArray.toList.loop bytes i read = read.reverse ++ bytes.data.toList.drop i := by
    induction i, read using ByteArray.toList.loop.induct bytes with
    | case1 i read hlt ih =>
      have hlength : i < bytes.data.toList.length := by simpa using hlt
      have hget : bytes.get! i = bytes.data.toList[i] := by
        rw [ByteArray.get!, Array.getElem_toList]
        exact getElem!_pos bytes.data i (by simpa using hlt)
      rw [ByteArray.toList.loop, if_pos hlt, ih, List.drop_eq_getElem_cons hlength, hget]
      simp
    | case2 i read hge =>
      have hlength : bytes.data.toList.length ≤ i := by simpa using hge
      rw [ByteArray.toList.loop, if_neg hge, List.drop_eq_nil_of_le hlength, List.append_nil]
  rw [ByteArray.toList, hloop]
  rfl

/-- If what is written of each item shows where it ends, then so does what is written of as many. -/
theorem forall₂_of_flatMap_append {α β : Type} {f : α → List β} {R : α → α → Prop}
    {items items' : List α} (hitems : ∀ a ∈ items, ∀ b ∈ items', ∀ rest rest',
      f a ++ rest = f b ++ rest' → R a b ∧ rest = rest')
    (hlength : items.length = items'.length) {rest rest' : List β}
    (h : items.flatMap f ++ rest = items'.flatMap f ++ rest') :
    List.Forall₂ R items items' ∧ rest = rest' := by
  induction items generalizing items' with
  | nil =>
    obtain rfl := List.length_eq_zero_iff.mp hlength.symm
    exact ⟨.nil, h⟩
  | cons first more ih =>
    rcases items' with _ | ⟨first', more'⟩
    · cases hlength
    rw [List.flatMap_cons, List.flatMap_cons, List.append_assoc, List.append_assoc] at h
    obtain ⟨hfirst, hmore⟩ := hitems first List.mem_cons_self first' List.mem_cons_self _ _ h
    obtain ⟨hrest, hend⟩ := ih (fun a ha b hb =>
      hitems a (List.mem_cons_of_mem _ ha) b (List.mem_cons_of_mem _ hb))
      (Nat.succ.inj hlength) hmore
    exact ⟨.cons hfirst hrest, hend⟩

namespace Sha256

theorem bigEndian_succ (count n : Nat) :
    bigEndian (count + 1) n = UInt8.ofNat (n >>> (8 * count)) :: bigEndian count n := by
  rw [bigEndian, List.range_succ, List.reverse_append]
  rfl

@[simp] theorem length_bigEndian (count n : Nat) : (bigEndian count n).length = count := by
  rw [bigEndian, List.length_map, List.length_reverse, List.length_range]

/-- The bytes of a number tell the number, as far as they reach. -/
theorem mod_eq_of_bigEndian_eq {count m n : Nat} (h : bigEndian count m = bigEndian count n) :
    m % 256 ^ count = n % 256 ^ count := by
  induction count with
  | zero => rw [Nat.pow_zero, Nat.mod_one, Nat.mod_one]
  | succ count ih =>
    rw [bigEndian_succ, bigEndian_succ] at h
    obtain ⟨hfirst, hrest⟩ := List.cons.inj h
    have hbyte : m / 256 ^ count % 256 = n / 256 ^ count % 256 := by
      have hbyte := congrArg UInt8.toNat hfirst
      rw [UInt8.toNat_ofNat', UInt8.toNat_ofNat', Nat.shiftRight_eq_div_pow,
        Nat.shiftRight_eq_div_pow, Nat.pow_mul] at hbyte
      exact hbyte
    rw [Nat.mod_pow_succ, Nat.mod_pow_succ, ih hrest, hbyte]

/-- The digits of bytes tell the bytes. -/
theorem hex_injective : Function.Injective hex := by
  intro bytes bytes' h
  have hdigits := String.ofList_injective h
  have hdigit : ∀ m < 16, ∀ n < 16, Nat.digitChar m = Nat.digitChar n → m = n := by decide
  induction bytes generalizing bytes' with
  | nil =>
    rcases bytes' with _ | ⟨byte', rest'⟩
    · rfl
    · cases hdigits
  | cons byte rest ih =>
    rcases bytes' with _ | ⟨byte', rest'⟩
    · cases hdigits
    have hlt := byte.toNat_lt
    have hlt' := byte'.toNat_lt
    simp only [List.flatMap_cons, List.cons_append, List.nil_append, List.cons.injEq] at hdigits
    obtain ⟨hhigh, hlow, hrest⟩ := hdigits
    have hhigh := hdigit _ (by omega) _ (by omega) hhigh
    have hlow := hdigit _ (by omega) _ (by omega) hlow
    have hbyte : byte = byte' := UInt8.toNat_inj.mp (by omega)
    rw [hbyte, ih (by rw [hex, hex, hrest]) hrest]

/-- Two messages that the digest does not tell apart. -/
def Collision (message message' : List UInt8) : Prop :=
  message ≠ message' ∧ digest message = digest message'

end Sha256

/-- Sorting commutes with a change that the order does not notice. -/
theorem sortBy_map {α β : Type} {le : α → α → Bool} {le' : β → β → Bool} {f : α → β}
    (hle : ∀ a b, le' (f a) (f b) = le a b) (items : List α) :
    sortBy le' (items.map f) = (sortBy le items).map f := by
  have hinsert (item : α) (sorted : List α) :
      insertBy le' (f item) (sorted.map f) = (insertBy le item sorted).map f := by
    induction sorted with
    | nil => rfl
    | cons first rest ih =>
      rw [List.map_cons, insertBy, insertBy, hle]
      split
      · rfl
      · rw [List.map_cons, ih]
  induction items with
  | nil => rfl
  | cons first rest ih =>
    rw [sortBy, List.map_cons, List.foldr_cons, ← sortBy, ih, hinsert]
    rfl

namespace Document

/-! ## Documents that are alike -/

mutual

/-- Documents that are equal but for the order of the entries of objects, and but for numbers that
have one canonical form. -/
inductive Alike : Document → Document → Prop
  | null : Alike .null .null
  | bool (value : Bool) : Alike (.bool value) (.bool value)
  | number {value value' : Number} (h : value.canonical = value'.canonical) :
    Alike (.number value) (.number value')
  | string (value : String) : Alike (.string value) (.string value)
  | array {items items' : List Document} (h : List.Forall₂ Alike items items') :
    Alike (.array items) (.array items')
  | object {entries shuffled entries' : List (String × Document)}
    (h : List.Forall₂ AlikeEntry entries shuffled) (hperm : shuffled.Perm entries') :
    Alike (.object entries) (.object entries')

/-- Entries with the same key and values that are alike. -/
inductive AlikeEntry : String × Document → String × Document → Prop
  | mk {key : String} {value value' : Document} (h : Alike value value') :
    AlikeEntry (key, value) (key, value')

end

/-- A document as it can be held: whole numbers have 64 bits, texts and lists have a length of 64
bits, and no key of an object comes twice. -/
inductive Proper : Document → Prop
  | null : Proper .null
  | bool (value : Bool) : Proper (.bool value)
  | number {value : Number} (h : ∀ n, value = .whole n → Number.isWhole64 n = true) :
    Proper (.number value)
  | string {value : String} (h : value.utf8ByteSize < 2 ^ 64) : Proper (.string value)
  | array {items : List Document} (hcount : items.length < 2 ^ 64)
    (hitems : ∀ item ∈ items, Proper item) : Proper (.array items)
  | object {entries : List (String × Document)} (hcount : entries.length < 2 ^ 64)
    (hkeys : ∀ entry ∈ entries, entry.1.utf8ByteSize < 2 ^ 64)
    (hnodup : (entries.map (·.1)).Nodup) (hvalues : ∀ entry ∈ entries, Proper entry.2) :
    Proper (.object entries)

/-- What is true of a document if it is true of its parts is true of every document. -/
theorem of_parts {P : Document → Prop} (null : P .null) (bool : ∀ value, P (.bool value))
    (number : ∀ value, P (.number value)) (string : ∀ value, P (.string value))
    (array : ∀ items, (∀ item ∈ items, P item) → P (.array items))
    (object : ∀ entries, (∀ entry ∈ entries, P entry.2) → P (.object entries))
    (document : Document) : P document :=
  @Document.rec P (fun items => ∀ item ∈ items, P item) (fun entries => ∀ entry ∈ entries, P entry.2)
    (fun entry => P entry.2) null bool number string array object
    (fun _ hitem => absurd hitem List.not_mem_nil)
    (fun _ _ hfirst hrest => List.forall_mem_cons.mpr ⟨hfirst, hrest⟩)
    (fun _ hentry => absurd hentry List.not_mem_nil)
    (fun _ _ hfirst hrest => List.forall_mem_cons.mpr ⟨hfirst, hrest⟩)
    (fun _ _ hvalue => hvalue) document

/-! ## Parts of encodings -/

variable {rest rest' : List UInt8}

theorem encodeItems_eq_map (items : List Document) : encodeItems items = items.map encode := by
  induction items with
  | nil => rfl
  | cons first rest ih => rw [encodeItems, List.map_cons, ih]

theorem encodeEntries_eq_map (entries : List (String × Document)) :
    encodeEntries entries = entries.map fun entry => (entry.1, entry.2.encode) := by
  induction entries with
  | nil => rfl
  | cons first rest ih => rw [encodeEntries, List.map_cons, ih]

/-- An entry: its key and its value. -/
def encodeEntry (entry : String × Document) : List UInt8 :=
  encodeText entry.1 ++ entry.2.encode

/-- Entries in the order of their keys. -/
def sorted (entries : List (String × Document)) : List (String × Document) :=
  sortBy (fun a b => (compare a.1 b.1).isLE) entries

theorem perm_sorted (entries : List (String × Document)) : (sorted entries).Perm entries :=
  perm_sortBy entries

/-- The letter for the kind of a document. -/
def kind : Document → Char
  | .null => 'n'
  | .bool value => if value then 't' else 'f'
  | .number _ => 'd'
  | .string _ => 's'
  | .array _ => 'a'
  | .object _ => 'o'

/-- What comes behind the kind. -/
def body : Document → List UInt8
  | .null | .bool _ => []
  | .number value => encodeText value.canonical
  | .string value => encodeText value
  | .array items => encodeLength items.length ++ items.flatMap encode
  | .object entries => encodeLength entries.length ++ (sorted entries).flatMap encodeEntry

/-- Objects are encoded in the order of their keys. -/
theorem sortByKey_encodeEntries (entries : List (String × Document)) :
    sortByKey (encodeEntries entries) =
      (sorted entries).map fun entry => (entry.1, entry.2.encode) := by
  rw [encodeEntries_eq_map, sortByKey, sorted]
  exact sortBy_map (fun _ _ => rfl) entries

/-- An encoding is a kind and what comes behind it. -/
theorem encode_eq (document : Document) : document.encode = tag document.kind :: document.body := by
  cases document with
  | null => rw [encode, kind, body]
  | bool value => rw [encode, kind, body]
  | number value => rw [encode, kind, body]
  | string value => rw [encode, kind, body]
  | array items =>
    rw [encode, kind, body, encodeItems_eq_map, List.length_map, List.flatMap_def]
    rfl
  | object entries =>
    have hlength : (sorted entries).length = entries.length := (perm_sorted entries).length_eq
    rw [encode, kind, body, sortByKey_encodeEntries, List.length_map, hlength, List.flatMap_map]
    rfl

/-- Documents of one kind. The two truth values are kinds of their own. -/
inductive SameKind : Document → Document → Prop
  | null : SameKind .null .null
  | bool (value : Bool) : SameKind (.bool value) (.bool value)
  | number (value value' : Number) : SameKind (.number value) (.number value')
  | string (value value' : String) : SameKind (.string value) (.string value')
  | array (items items' : List Document) : SameKind (.array items) (.array items')
  | object (entries entries' : List (String × Document)) :
    SameKind (.object entries) (.object entries')

theorem sameKind_of_kind_eq {document document' : Document}
    (h : document.kind = document'.kind) : SameKind document document' := by
  rcases document with _ | (_ | _) | _ | _ | _ | _ <;>
    rcases document' with _ | (_ | _) | _ | _ | _ | _ <;>
      first
      | constructor
      | simp [kind] at h

theorem kind_toNat_lt (document : Document) : document.kind.toNat < 256 := by
  cases document with
  | bool value => cases value <;> decide
  | _ => simp [kind]

/-- An encoding shows its kind. -/
theorem sameKind_of_encode_append {document document' : Document}
    (h : document.encode ++ rest = document'.encode ++ rest') :
    SameKind document document' ∧ document.body ++ rest = document'.body ++ rest' := by
  rw [encode_eq, encode_eq] at h
  obtain ⟨htag, hbody⟩ := List.cons.inj h
  have hbyte : document.kind.toNat % 256 = document'.kind.toNat % 256 := congrArg UInt8.toNat htag
  rw [Nat.mod_eq_of_lt (kind_toNat_lt _), Nat.mod_eq_of_lt (kind_toNat_lt _)] at hbyte
  exact ⟨sameKind_of_kind_eq (Char.toNat_inj.mp hbyte), hbody⟩

/-- A length shows where it ends. -/
theorem encodeLength_append {m n : Nat} (hm : m < 2 ^ 64) (hn : n < 2 ^ 64)
    (h : encodeLength m ++ rest = encodeLength n ++ rest') : m = n ∧ rest = rest' := by
  obtain ⟨hbytes, hrest⟩ := List.append_inj h (by simp [encodeLength])
  have hmod := Sha256.mod_eq_of_bigEndian_eq hbytes
  rw [show 256 ^ 8 = 2 ^ 64 by norm_num, Nat.mod_eq_of_lt hm, Nat.mod_eq_of_lt hn] at hmod
  exact ⟨hmod, hrest⟩

/-- A text shows where it ends. -/
theorem encodeText_append {text text' : String} (hsize : text.utf8ByteSize < 2 ^ 64)
    (hsize' : text'.utf8ByteSize < 2 ^ 64)
    (h : encodeText text ++ rest = encodeText text' ++ rest') : text = text' ∧ rest = rest' := by
  rw [encodeText, encodeText, List.append_assoc, List.append_assoc, toList_byteArray,
    toList_byteArray] at h
  obtain ⟨hlength, hbytes⟩ := encodeLength_append hsize hsize' h
  obtain ⟨hdata, hrest⟩ := List.append_inj hbytes hlength
  exact ⟨String.toByteArray_inj.mp (ByteArray.ext (Array.toList_inj.mp hdata)), hrest⟩

/-- Entries in another order are like entries of the other object, if the sorted ones are. -/
theorem Alike.of_sorted {entries entries' : List (String × Document)}
    (h : List.Forall₂ AlikeEntry (sorted entries) (sorted entries')) :
    Alike (.object entries) (.object entries') := by
  obtain ⟨shuffled, hshuffled, hperm⟩ := List.perm_comp_forall₂ (perm_sorted entries).symm h
  exact .object hshuffled (hperm.trans (perm_sorted entries'))

/-- An encoding shows where it ends, and what was encoded up to being alike. -/
theorem alike_of_encode_append (document : Document) : ∀ document' rest rest',
    document.Proper → document'.Proper → document.encode ++ rest = document'.encode ++ rest' →
      document.Alike document' ∧ rest = rest' := by
  induction document using of_parts with
  | null =>
    intro document' rest rest' _ _ h
    obtain ⟨hkind, hbody⟩ := sameKind_of_encode_append h
    cases hkind
    exact ⟨.null, hbody⟩
  | bool value =>
    intro document' rest rest' _ _ h
    obtain ⟨hkind, hbody⟩ := sameKind_of_encode_append h
    cases hkind
    exact ⟨.bool value, hbody⟩
  | number value =>
    rintro document' rest rest' (_ | _ | ⟨hwhole⟩) hproper' h
    obtain ⟨hkind, hbody⟩ := sameKind_of_encode_append h
    cases hkind
    rcases hproper' with _ | _ | ⟨hwhole'⟩
    obtain ⟨htext, hrest⟩ := encodeText_append (Number.utf8ByteSize_canonical_lt hwhole)
      (Number.utf8ByteSize_canonical_lt hwhole') hbody
    exact ⟨.number htext, hrest⟩
  | string value =>
    rintro document' rest rest' (_ | _ | _ | ⟨hsize⟩) hproper' h
    obtain ⟨hkind, hbody⟩ := sameKind_of_encode_append h
    cases hkind
    rcases hproper' with _ | _ | _ | ⟨hsize'⟩
    obtain ⟨rfl, hrest⟩ := encodeText_append hsize hsize' hbody
    exact ⟨.string value, hrest⟩
  | array items ih =>
    intro document' rest rest' hproper hproper' h
    obtain ⟨hkind, hbody⟩ := sameKind_of_encode_append h
    cases hkind with
    | array _ items' =>
    rcases hproper with _ | _ | _ | _ | ⟨hcount, hitems⟩
    rcases hproper' with _ | _ | _ | _ | ⟨hcount', hitems'⟩
    rw [body, body, List.append_assoc, List.append_assoc] at hbody
    obtain ⟨hlength, hbody⟩ := encodeLength_append hcount hcount' hbody
    obtain ⟨halike, hrest⟩ := forall₂_of_flatMap_append (fun item hitem item' hitem' rest rest' =>
      ih item hitem item' rest rest' (hitems item hitem) (hitems' item' hitem')) hlength hbody
    exact ⟨.array halike, hrest⟩
  | object entries ih =>
    intro document' rest rest' hproper hproper' h
    obtain ⟨hkind, hbody⟩ := sameKind_of_encode_append h
    cases hkind with
    | object _ entries' =>
    rcases hproper with _ | _ | _ | _ | _ | ⟨hcount, hkeys, -, hvalues⟩
    rcases hproper' with _ | _ | _ | _ | _ | ⟨hcount', hkeys', -, hvalues'⟩
    rw [body, body, List.append_assoc, List.append_assoc] at hbody
    obtain ⟨hlength, hbody⟩ := encodeLength_append hcount hcount' hbody
    have hsorted : (sorted entries).length = (sorted entries').length := by
      rw [(perm_sorted entries).length_eq, (perm_sorted entries').length_eq, hlength]
    have hentries : ∀ entry ∈ sorted entries, ∀ entry' ∈ sorted entries', ∀ rest rest',
        encodeEntry entry ++ rest = encodeEntry entry' ++ rest' →
          AlikeEntry entry entry' ∧ rest = rest' := by
      rintro ⟨key, value⟩ hentry ⟨key', value'⟩ hentry' rest rest' h
      rw [(perm_sorted _).mem_iff] at hentry hentry'
      rw [encodeEntry, encodeEntry, List.append_assoc, List.append_assoc] at h
      obtain ⟨rfl, hvalue⟩ := encodeText_append (hkeys _ hentry) (hkeys' _ hentry') h
      obtain ⟨halike, hrest⟩ := ih _ hentry value' _ _ (hvalues _ hentry) (hvalues' _ hentry') hvalue
      exact ⟨.mk halike, hrest⟩
    obtain ⟨halike, hrest⟩ := forall₂_of_flatMap_append hentries hsorted hbody
    exact ⟨.of_sorted halike, hrest⟩

/-! ## Alike documents -/

/-- Entries are put in order, whatever order they were in. -/
theorem sorted_eq_of_perm {entries entries' : List (String × Document)}
    (hperm : entries.Perm entries') (hnodup : (entries.map (·.1)).Nodup) :
    sorted entries = sorted entries' := by
  have hpairwise (entries : List (String × Document)) :
      (sorted entries).Pairwise fun a b => (compare a.1 b.1).isLE := by
    refine pairwise_sortBy (fun _ _ _ => Std.TransCmp.isLE_trans) (fun a b => ?_) entries
    rcases hle : (compare a.1 b.1).isLE with _ | _
    · have hlt := Std.OrientedCmp.lt_of_not_isLE (Bool.eq_false_iff.mp hle)
      rw [hlt]
      rfl
    · rfl
  refine ((perm_sorted entries).trans (hperm.trans (perm_sorted entries').symm)).eq_of_pairwise
    (fun a b ha hb hle hge => ?_) (hpairwise entries) (hpairwise entries')
  -- No two entries have one key, so that none can be exchanged.
  rw [(perm_sorted _).mem_iff] at ha hb
  exact List.inj_on_of_nodup_map hnodup ha (hperm.mem_iff.mpr hb)
    (Std.LawfulEqCmp.eq_of_compare (Std.OrientedCmp.isLE_antisymm hle hge))

/-- Lists that correspond item by item are mapped to the same, if their items are. -/
theorem map_eq_of_forall₂ {α β : Type} {R : α → α → Prop} {f : α → β} {items items' : List α}
    (h : List.Forall₂ R items items') (hitems : ∀ a ∈ items, ∀ b, R a b → f a = f b) :
    items.map f = items'.map f := by
  induction h with
  | nil => rfl
  | cons hfirst hrest ih =>
    rw [List.map_cons, List.map_cons, hitems _ List.mem_cons_self _ hfirst,
      ih fun a ha => hitems a (List.mem_cons_of_mem _ ha)]

/-- Alike documents have one encoding. -/
theorem encode_eq_of_alike (document : Document) : ∀ document', document.Proper →
    document.Alike document' → document.encode = document'.encode := by
  induction document using of_parts with
  | null =>
    rintro _ - ⟨⟩
    rfl
  | bool value =>
    rintro _ - ⟨⟩
    rfl
  | number value =>
    rintro _ - (_ | _ | ⟨h⟩)
    rw [encode, encode, h]
  | string value =>
    rintro _ - ⟨⟩
    rfl
  | array items ih =>
    rintro _ hproper (_ | _ | _ | _ | ⟨h⟩)
    rcases hproper with _ | _ | _ | _ | ⟨-, hitems⟩
    have hmap := map_eq_of_forall₂ h fun item hitem item' => ih item hitem item' (hitems item hitem)
    rw [encode, encode, encodeItems_eq_map, encodeItems_eq_map, hmap]
  | object entries ih =>
    rintro _ hproper (_ | _ | _ | _ | _ | ⟨h, hperm⟩)
    rcases hproper with _ | _ | _ | _ | _ | ⟨-, -, hnodup, hvalues⟩
    have hkeys := map_eq_of_forall₂ (f := fun entry => entry.1) h fun _ _ _ ⟨_⟩ => rfl
    have hmap := map_eq_of_forall₂ (f := fun entry => (entry.1, entry.2.encode)) h
      fun entry hentry _ ⟨halike⟩ =>
        congrArg (Prod.mk _) (ih entry hentry _ (hvalues entry hentry) halike)
    rw [encode, encode, encodeEntries_eq_map, hmap, ← encodeEntries_eq_map,
      sortByKey_encodeEntries, sortByKey_encodeEntries, sorted_eq_of_perm hperm (hkeys ▸ hnodup)]

/-- Two documents have one encoding just when they are alike. They have one fingerprint when they are
alike, and else only if their encodings are a collision of the digest. -/
theorem encode_eq_iff_alike {document document' : Document} (hproper : document.Proper)
    (hproper' : document'.Proper) :
    (document.encode = document'.encode ↔ document.Alike document') ∧
      (document.fingerprint = document'.fingerprint ↔
        document.Alike document' ∨ Sha256.Collision document.encode document'.encode) := by
  have hencode : document.encode = document'.encode ↔ document.Alike document' := by
    refine ⟨fun h => ?_, encode_eq_of_alike document document' hproper⟩
    exact (alike_of_encode_append document document' [] [] hproper hproper' (by rw [h])).1
  refine ⟨hencode, ?_⟩
  rw [fingerprint, fingerprint, Sha256.hex_injective.eq_iff, ← hencode, Sha256.Collision]
  refine ⟨fun h => ?_, ?_⟩
  · by_cases heq : document.encode = document'.encode
    · exact .inl heq
    · exact .inr ⟨heq, h⟩
  · rintro (heq | ⟨-, h⟩)
    · rw [heq]
    · exact h

end Document

/-- Three, as a double. -/
def Binary64.three : Binary64 :=
  ⟨false, 0x18000000000000, -51, by decide, by decide, by decide, .inl (by decide)⟩

namespace Document

/-- Entries that are not in the order of their keys, on two levels. -/
def unordered : Document :=
  .object [("b", .object [("d", .null), ("c", .array [.ofInt 1, .ofInt 2])]), ("a", .ofInt 3)]

/-- The same entries in order, with a double in the place of a whole number. -/
def ordered : Document :=
  .object [("a", .number (.double Binary64.three)),
    ("b", .object [("c", .array [.ofInt 1, .ofInt 2]), ("d", .null)])]

theorem proper_ofInt {n : Int} (h : Number.isWhole64 n = true) : (ofInt n).Proper :=
  .number fun _ hn => Number.whole.inj hn ▸ h

/-- The two are alike, and so they have one encoding and one fingerprint. -/
theorem encode_eq_iff_alike_ordered :
    unordered.Proper ∧ ordered.Proper ∧ unordered.encode = ordered.encode ∧
      unordered.Alike ordered ∧ unordered.fingerprint = ordered.fingerprint := by
  have hboth {α : Type} {P : α → Prop} {a b : α} (ha : P a) (hb : P b) : ∀ x ∈ [a, b], P x :=
    List.forall_mem_cons.mpr ⟨ha, List.forall_mem_singleton.mpr hb⟩
  have hone : (ofInt 1).Proper := proper_ofInt (by decide)
  have htwo : (ofInt 2).Proper := proper_ofInt (by decide)
  have hthree : (ofInt 3).Proper := proper_ofInt (by decide)
  have hdouble : (number (.double Binary64.three)).Proper := .number fun _ hn => nomatch hn
  have hlist : (array [.ofInt 1, .ofInt 2]).Proper := .array (by decide) (hboth hone htwo)
  have hunordered : unordered.Proper :=
    .object (by decide) (by decide) (by decide)
      (hboth (.object (by decide) (by decide) (by decide) (hboth .null hlist)) hthree)
  have hordered : ordered.Proper :=
    .object (by decide) (by decide) (by decide)
      (hboth hdouble (.object (by decide) (by decide) (by decide) (hboth hlist .null)))
  obtain ⟨hencode, hfingerprint⟩ := encode_eq_iff_alike hunordered hordered
  have hsame : unordered.encode = ordered.encode := by decide +kernel
  exact ⟨hunordered, hordered, hsame, hencode.mp hsame, hfingerprint.mpr (.inl (hencode.mp hsame))⟩

end Document

end VersionedTables
