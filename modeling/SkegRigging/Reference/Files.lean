import SkegRigging.Adapter.FullCopy
import SkegRigging.Reference.Engine
import SkegRigging.Reference.Json

/-!
# A tenant directory on disk

The directory of the reference tenant in a file system, and an operating system on which no call
fails. The content of a file is a text or a log of the reference engine.
-/

set_option autoImplicit false

namespace SkegRigging.Reference

open FileTree Fs

/-- A file is a text or a log. -/
def plain : FileFormat engine (Bytes ⊕ Log) where
  text
    | .inl bytes => bytes
    | .inr _ => []
  ofText := .inl
  index
    | .inl _ => .empty 0
    | .inr log => log
  empty := .inl []
  text_ofText _ := rfl
  text_empty := rfl

/-- Nothing fails; a directory is enumerated as told. -/
def calm {C : Type} (order : List String → List String) : FsEnv C where
  createDir _ := none
  readDir _ := none
  order := order
  entry _ := none
  copy _ := .done

theorem quiet_calm {C : Type} (order : List String → List String) : Quiet (calm order : FsEnv C) :=
  ⟨fun _ => rfl, fun _ => rfl, fun _ => rfl, fun _ => rfl⟩

/-- Write a file if that is possible. -/
def saved {C : Type} (dir : List String) (name : String) (c : C) (fs : FileTree String C) :
    FileTree String C :=
  if h : fs.Writable dir name then fs.put dir name c h else fs

theorem node_saved {C : Type} {dir : List String} {name : String} {c : C} {fs : FileTree String C}
    (h : fs.Writable dir name) (q : List String) :
    (saved dir name c fs).node q = if q = dir ++ [name] then some (.file c) else fs.node q := by
  rw [saved, dif_pos h, node_put]

/-- A tenant of dimension one whose index holds the vector `[5]` under the id 1. -/
def stocked : Tenant engine :=
  Tenant.handle home ((Log.empty 1).insert 1 [5])
    ⟨.zero, 1, [⟨1, true, ["note"], [104, 105]⟩]⟩ .zero 1

/-- Its directory, before a flush. -/
def homeTree : FileTree String (Bytes ⊕ Log) :=
  saved home.components "CURRENT" (.inr (.empty 0))
    (saved home.components "delta.log" (.inr ((Log.empty 1).insert 1 [5]))
      (saved home.components "tier.kind" (.inr (.empty 0))
        (saved home.components "meta.json" (.inl (json.toVec (.empty .zero 1)))
          (bare.makeDirs home.components))))

/-- What is at and below the directory. -/
theorem node_homeTree (r : List String) :
    homeTree.node (home.components ++ r) =
      if r = ["CURRENT"] then some (.file (.inr (.empty 0)))
      else if r = ["delta.log"] then some (.file (.inr ((Log.empty 1).insert 1 [5])))
      else if r = ["tier.kind"] then some (.file (.inr (.empty 0)))
      else if r = ["meta.json"] then some (.file (.inl (json.toVec (.empty .zero 1))))
      else if r = [] then some .dir else none := by
  have hbase : (bare.makeDirs home.components : FileTree String (Bytes ⊕ Log)).node
      (home.components ++ r) = if r = [] then some .dir else none := by
    cases r with
    | nil => exact node_makeDirs_self
    | cons n r =>
      rw [node_makeDirs_below (List.prefix_refl _) (List.cons_ne_nil n r),
        if_neg (List.cons_ne_nil n r)]
      rfl
  rw [homeTree, node_saved (by decide +kernel), node_saved (by decide +kernel),
    node_saved (by decide +kernel), node_saved (by decide +kernel), hbase]
  simp only [List.append_cancel_left_eq]

theorem depth_homeTree : DepthLE homeTree home.components 1 := by
  intro r hr
  rw [FileTree.exists, node_homeTree] at hr
  by_contra hlong
  have hne : ∀ n : String, r ≠ [n] := by
    rintro n rfl
    exact hlong (Nat.le_refl 1)
  have hnil : r ≠ [] := by
    rintro rfl
    exact hlong (Nat.zero_le 1)
  simp [hne, hnil] at hr

/-- The enumeration of the directory. -/
def homeOrder (dir : List String) : List String :=
  if dir = home.components then ["delta.log", "meta.json", "CURRENT", "tier.kind"] else []

/-- Paths of new directories. -/
def snapshotHome : PathBuf := { absolute := true, components := ["snapshot"] }

def restoredHome : PathBuf := { absolute := true, components := ["restored"] }

end SkegRigging.Reference
