import SkegRigging.Adapter.Sidecar
import SkegRigging.Library.PrefixCodec

/-!
# The sidecar as JSON text

A concrete `SerdeJson`: the compact text that `serde_json` prints for a sidecar, fields in
declaration order, payload and tenant id as arrays of numbers. It stands in for `serde_json` where a
run is evaluated. Control characters in tags are left as they are.
-/

set_option autoImplicit false

namespace SkegRigging.Reference

open PrefixCodec

/-- The UTF-8 bytes of a text. -/
def utf8 (s : String) : List UInt8 := s.toByteArray.data.toList

def u8 : Codec UInt8 :=
  convert digits UInt8.toNat fun n => if n < 2 ^ 8 then some (UInt8.ofNat n) else none

def u32 : Codec UInt32 :=
  convert digits UInt32.toNat fun n => if n < 2 ^ 32 then some (UInt32.ofNat n) else none

def u64 : Codec UInt64 :=
  convert digits UInt64.toNat fun n => if n < 2 ^ 64 then some (UInt64.ofNat n) else none

/-- A string from its bytes, when they are UTF-8. -/
def text : Codec String := convert quoted utf8 fun bs => String.fromUTF8? ⟨bs.toArray⟩

/-- Sixteen numbers. -/
def tenantId : Codec TenantId :=
  convert (list u8) (fun t => t.bytes.toList) fun bs =>
    if h : bs.toArray.size = 16 then some ⟨⟨bs.toArray, h⟩⟩ else none

def recordEntry : Codec RecordEntry :=
  convert
    (pair (enclose (utf8 "\x7b\"record_id\":") u64 (utf8 ",\"shareable\":"))
      (pair (enclose [] bool (utf8 ",\"tags\":"))
        (pair (enclose [] (list text) (utf8 ",\"payload\":"))
          (enclose [] (list u8) (utf8 "\x7d")))))
    (fun e => (e.recordId, e.shareable, e.tags, e.payload))
    fun (recordId, shareable, tags, payload) => some { recordId, shareable, tags, payload }

def sidecar : Codec MetadataSidecar :=
  convert
    (pair (enclose (utf8 "\x7b\"tenant_id\":") tenantId (utf8 ",\"embedding_dim\":"))
      (pair (enclose [] u32 (utf8 ",\"records\":"))
        (enclose [] (list recordEntry) (utf8 "\x7d"))))
    (fun s => (s.tenantId, s.embeddingDim, s.records))
    fun (tenantId, embeddingDim, records) => some { tenantId, embeddingDim, records }

/-! ## The codecs read what they write -/

theorem u8_open : Open u8 :=
  convert_open digits_open fun b => by simp [b.toNat_lt]

theorem u32_open : Open u32 :=
  convert_open digits_open fun b => by simp [b.toNat_lt]

theorem u64_open : Open u64 :=
  convert_open digits_open fun b => by simp [b.toNat_lt]

theorem text_closed : Closed text :=
  convert_closed quoted_closed fun s => by
    have hbytes : (⟨(utf8 s).toArray⟩ : ByteArray) = s.toByteArray := by simp [utf8]
    -- the bytes of a string are always UTF-8
    rw [hbytes, String.fromUTF8?, dif_pos s.isValidUTF8]
    rfl

/-- The text of a number starts with a digit. -/
theorem dropLit_digits (n : Nat) (rest : List UInt8) :
    dropLit [93] (digits.write n ++ rest) = none := by
  obtain ⟨c, cs, hcs⟩ := List.exists_cons_of_ne_nil (Nat.toDigits_ne_nil (n := n) (b := 10))
  have hc : c.isDigit = true :=
    Nat.isDigit_of_mem_toDigits (by decide) (by decide) (hcs ▸ List.mem_cons_self)
  have hne : UInt8.ofNat c.toNat ≠ 93 := by
    intro h
    have hdigit := (isDigit_of_char hc).1
    rw [h] at hdigit
    simp [isDigit] at hdigit
  simp [dropLit, digits, hcs, hne]

theorem bytes_closed : Closed (list u8) :=
  list_closed u8_open fun b rest => dropLit_digits b.toNat rest

theorem tags_closed : Closed (list text) :=
  list_closed text_closed.open fun s rest => by simp [dropLit, text, convert, quoted]

theorem tenantId_closed : Closed tenantId :=
  convert_closed bytes_closed fun t => by
    obtain ⟨⟨bytes, hsize⟩⟩ := t
    simp [hsize]

theorem recordEntry_closed : Closed recordEntry := by
  refine convert_closed (pair_closed ?_ (pair_closed ?_ (pair_closed ?_ ?_))) fun e => rfl
  · exact enclose_closed _ u64_open (by decide) _
  · exact enclose_closed _ bool_closed.open (by decide) _
  · exact enclose_closed _ tags_closed.open (by decide) _
  · exact enclose_closed _ bytes_closed.open (by decide) _

theorem records_closed : Closed (list recordEntry) :=
  list_closed recordEntry_closed.open fun e rest => by
    have hbrace : utf8 "\x7b\"record_id\":" = 123 :: utf8 "\"record_id\":" := by decide +kernel
    simp [dropLit, recordEntry, convert, pair, enclose, hbrace]

theorem sidecar_closed : Closed sidecar := by
  refine convert_closed (pair_closed ?_ (pair_closed ?_ ?_)) fun s => rfl
  · exact enclose_closed _ tenantId_closed.open (by decide) _
  · exact enclose_closed _ u32_open (by decide) _
  · exact enclose_closed _ records_closed.open (by decide) _

/-- `serde_json` on sidecars. The reader accepts the text of a sidecar and nothing else. -/
def json : SerdeJson where
  toVec := sidecar.write
  fromSlice bytes :=
    match sidecar.read bytes with
    | some (s, []) => if sidecar.write s = bytes then .ok s else .error "invalid JSON"
    | _ => .error "invalid JSON"

theorem json_laws : json.Laws where
  roundTrip s := by
    have hread : sidecar.read (sidecar.write s) = some (s, []) := by
      simpa using sidecar_closed s []
    simp only [json, hread, if_true]
  truncated s n hn := by
    cases hp : json.fromSlice ((json.toVec s).take n) with
    | error e => exact ⟨e, rfl⟩
    | ok s' =>
      have hwrite : sidecar.write s' = (sidecar.write s).take n := by
        simp only [json] at hp
        split at hp
        · split at hp
          · rename_i heq
            rw [← Except.ok.inj hp]
            exact heq
          · simp at hp
        · simp at hp
      have hsplit : sidecar.write s = sidecar.write s' ++ (sidecar.write s).drop n := by
        rw [hwrite, List.take_append_drop]
      -- the text of one sidecar inside another is the whole of it
      have hnil := (sidecar_closed.eq_of_append hsplit).2
      rw [List.drop_eq_nil_iff] at hnil
      exact absurd hn (Nat.not_lt.2 hnil)

end SkegRigging.Reference
