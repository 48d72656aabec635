import PackageCatalog.Action
import PackageCatalog.Atom
import PackageCatalog.PackageId
import PackageCatalog.CacheEntry
import PackageCatalog.Repository.Basic
import PackageCatalog.Command.Run
import PackageCatalog.Configuration
import PackageCatalog.Contents
import PackageCatalog.Dependency
import PackageCatalog.Eapi
import PackageCatalog.Environment
import PackageCatalog.Query
import PackageCatalog.Error
import PackageCatalog.Expression.Basic
import PackageCatalog.Expression.Leaf
import PackageCatalog.Expression.Token
import PackageCatalog.FileTree
import PackageCatalog.Keyword
import PackageCatalog.Main
import PackageCatalog.Metadata
import PackageCatalog.MaskList
import PackageCatalog.Mirrors
import PackageCatalog.Name
import PackageCatalog.Profile.Basic
import PackageCatalog.Profile.Descriptions
import PackageCatalog.Profile.Listing
import PackageCatalog.Profile.Load
import PackageCatalog.Repository.Ebuild
import PackageCatalog.Repository.Installed
import PackageCatalog.Repository.Manual
import PackageCatalog.Settings
import PackageCatalog.Sorted
import PackageCatalog.Text
import PackageCatalog.UseFlag
import PackageCatalog.Version.Basic
import PackageCatalog.Version.Operator
import PackageCatalog.Version.Order
import PackageCatalog.Workspace
import PackageCatalog.Proofs.Version.Digits
import PackageCatalog.Proofs.Version.Fingerprint
import PackageCatalog.Proofs.Version.ByText
import PackageCatalog.Proofs.Identity
import PackageCatalog.Proofs.Version.Staged
import PackageCatalog.Proofs.Version.Text
import PackageCatalog.Proofs.Version.Pattern
import PackageCatalog.Proofs.Version.Hyphens
import PackageCatalog.Proofs.Name
import PackageCatalog.Proofs.Atom.Split
import PackageCatalog.Proofs.Atom.RoundTrip
import PackageCatalog.Proofs.Atom.Canonical
import PackageCatalog.Proofs.Result
import PackageCatalog.Proofs.Profile.ParentTree
import PackageCatalog.Proofs.Profile.Directory
import PackageCatalog.Proofs.Profile.Load
import PackageCatalog.Proofs.Repository.Switching
import PackageCatalog.Proofs.Repository.Index
import PackageCatalog.Proofs.Repository.Provenance
import PackageCatalog.Proofs.Query.Pruning
import PackageCatalog.Proofs.Settings
import PackageCatalog.Proofs.Profile.UseFlags
import PackageCatalog.Proofs.Expression.Tokens
import PackageCatalog.Proofs.Expression.Scanning
import PackageCatalog.Proofs.Expression.Leaves
import PackageCatalog.Proofs.Expression.RoundTrip
import PackageCatalog.Proofs.Expression.Evaluation
import PackageCatalog.Proofs.Expression.Conditions
import PackageCatalog.Proofs.Configuration.Keywords
import PackageCatalog.Proofs.Configuration.Loading
import PackageCatalog.Proofs.UseFlag
import PackageCatalog.Proofs.Environment.UseFlags
import PackageCatalog.Proofs.Environment.UniqueName
import PackageCatalog.Proofs.Repository.Changes
import PackageCatalog.Proofs.Repository.Filling
import PackageCatalog.Proofs.Catalog
import PackageCatalog.Proofs.MaskList
import PackageCatalog.Proofs.Profile.Masks
import PackageCatalog.Proofs.Atom.Equality
import PackageCatalog.Proofs.Settings.Merging
import PackageCatalog.Proofs.Settings.Quoting
import PackageCatalog.Proofs.FileTree
import PackageCatalog.Proofs.Repository.Surroundings
import PackageCatalog.Proofs.Version.Dots
import PackageCatalog.Proofs.Repository.Finding
import PackageCatalog.Proofs.Repository.Building
import PackageCatalog.Proofs.Repository.Scanning
import PackageCatalog.Proofs.Repository.Isolation
import PackageCatalog.Proofs.Repository.Announcing
import PackageCatalog.Proofs.Version.Interval
import PackageCatalog.Proofs.Version.WithoutRevision
import PackageCatalog.Proofs.Version.Agreement
import PackageCatalog.Proofs.Atom.Reading
import PackageCatalog.Proofs.Query.Choosing
import PackageCatalog.Proofs.Query.Sorting
import PackageCatalog.Proofs.MaskList.Comments
import PackageCatalog.Proofs.Repository.Keys
import PackageCatalog.Proofs.Repository.Masking
import PackageCatalog.Proofs.Text.Integer
import PackageCatalog.Proofs.Contents
import PackageCatalog.Proofs.Contents.Locations
import PackageCatalog.Proofs.Repository.Installed
import PackageCatalog.Proofs.Environment.Licenses
import PackageCatalog.Proofs.UseFlag.Declarations
import PackageCatalog.Proofs.Profile.SystemSet
