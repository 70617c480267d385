import SkegRigging.Ingest.Watch
import SkegRigging.Reference.Engine
import SkegRigging.Reference.Json

/-!
# An embedder and a writer

For the evaluation of a watch run: an embedder whose calls succeed or fail as told in advance, and
the skeg tenant of the reference engine, opened in an empty directory, as the writer.
-/

set_option autoImplicit false

namespace SkegRigging.Reference

open Ingest

/-- The embedding of a text is its length. The state tells which of the coming calls succeed; past
its end they all do. -/
def scripted : Embed (List Bool) Int where
  dim _ := 1
  passage script text :=
    -- each call uses up one answer
    match script with
    | false :: script => (script, .error "embedder unreachable")
    | true :: script => (script, .ok [text.length])
    | [] => ([], .ok [text.length])

/-- A new tenant of dimension one, with its directory. -/
def vault : Dir engine × Tenant engine :=
  let (files, opened) := Tenant.open json quiet home .fresh .zero 1
  (files, opened.toOption.getD (Tenant.handle home (.empty 1) (.empty .zero 1) .zero 1))

example : (Tenant.open json quiet home .fresh .zero 1).2.isOk = true := by decide +kernel

/-- The tenant as a writer. -/
def vaultWriter : TenantWrite (Dir engine × Tenant engine) Int TenantError :=
  Tenant.writer json false .done

/-- Ingest Markdown files below the root. -/
def markdown : IngestOptions := { IngestOptions.default with exts := ["md"] }

/-- The watched directory. -/
def notes : PathBuf := ⟨true, ["home", "notes"]⟩

/-- A save of the file `name` in the watched directory: it happens at `happened` milliseconds, is
handled at `now`, and leaves `content`. -/
def save (name : String) (happened now : Nat) (content : Except IoError String) : Delivery :=
  .ok ⟨.modify, [⟨⟨true, ["home", "notes", name]⟩, happened * 10 ^ 6, now * 10 ^ 6, true,
    content.map String.toList⟩]⟩

end SkegRigging.Reference
